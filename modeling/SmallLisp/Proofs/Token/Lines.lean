import SmallLisp.Proofs.Token.Lexing

/-!
# Tokens line by line

A line feed ends every token but a string. So the tokens of a text that is followed by a line feed
and more text are those of the text, and then those of what follows, as they would be read from the
start of a text and then moved down.

* `lexemes_down`: a text that starts further down has the same tokens further down;
* `lexemes_withLine_of_eof`: a text that can be read is read in the same way before another line;
* `lexemes_withLine_of_failed`: an error stays, but for a string that can still end, and that stays
  as well if the line holds no double quote (`lexemes_withLine_of_no_quote`); the first double quote
  ends it (`next_closing`);
* `lexemes_prefix_withLine`: in any case the tokens found so far stay.
-/

namespace SmallLisp

/-! ## 1. What is passed -/

theorem Loc.advanceBy_append (l : Loc) (cs ds : List Char) :
    l.advanceBy (cs ++ ds) = (l.advanceBy cs).advanceBy ds := List.foldl_append

/-- Line feeds are counted. -/
theorem Loc.line_advanceBy (l : Loc) (cs : List Char) :
    (l.advanceBy cs).line = l.line + cs.count '\n' := by
  induction cs generalizing l with
  | nil => rfl
  | cons c cs ih =>
    show ((l.advance c).advanceBy cs).line = _
    rw [ih]
    by_cases hc : c = '\n'
    · simp [Loc.advance, hc]
      omega
    · simp [Loc.advance, hc]

theorem Loc.line_le_advanceBy (l : Loc) (cs : List Char) : l.line ≤ (l.advanceBy cs).line := by
  rw [line_advanceBy]
  exact Nat.le_add_right _ _

namespace Cursor

/-- The second cursor is reached from the first by passing some characters. -/
def Passes (cur cur' : Cursor) : Prop :=
  ∃ cs, cur.rest = cs ++ cur'.rest ∧ cur'.loc = cur.loc.advanceBy cs

theorem Passes.refl (cur : Cursor) : cur.Passes cur := ⟨[], rfl, rfl⟩

theorem Passes.trans {cur cur' cur'' : Cursor} (h : cur.Passes cur') (h' : cur'.Passes cur'') :
    cur.Passes cur'' := by
  obtain ⟨cs, hrest, hloc⟩ := h
  obtain ⟨ds, hrest', hloc'⟩ := h'
  refine ⟨cs ++ ds, ?_, ?_⟩
  · rw [hrest, hrest', List.append_assoc]
  · rw [hloc', hloc, Loc.advanceBy_append]

theorem Passes.line_le {cur cur' : Cursor} (h : cur.Passes cur') :
    cur.loc.line ≤ cur'.loc.line := by
  obtain ⟨cs, -, hloc⟩ := h
  rw [hloc]
  exact cur.loc.line_le_advanceBy cs

theorem Passes.char (c : Char) (cs : List Char) (loc : Loc) :
    Passes ⟨c :: cs, loc⟩ ⟨cs, loc.advance c⟩ := ⟨[c], rfl, rfl⟩

end Cursor

/-- A character goes on with a gap or ends it, wherever it stands and whatever follows. -/
theorem skipGap_cons (comment : Bool) (c : Char) :
    (∃ comment', ∀ loc cs, skipGap comment loc (c :: cs) = skipGap comment' (loc.advance c) cs) ∨
      ∀ loc cs, skipGap comment loc (c :: cs) = ⟨c :: cs, loc⟩ := by
  cases comment with
  | true => exact .inl ⟨c != '\n', fun _ _ => rfl⟩
  | false =>
    by_cases hspace : isSpace c = true
    · exact .inl ⟨false, fun loc cs => by simp [skipGap, hspace]⟩
    · by_cases hcomment : c = ';'
      · exact .inl ⟨true, fun loc cs => by simp [skipGap, hcomment, isSpace]⟩
      · exact .inr fun loc cs => by simp [skipGap, hspace, hcomment]

theorem passes_skipGap (comment : Bool) (loc : Loc) (cs : List Char) :
    Cursor.Passes ⟨cs, loc⟩ (skipGap comment loc cs) := by
  induction cs generalizing comment loc with
  | nil => exact .refl _
  | cons c cs ih =>
    rcases skipGap_cons comment c with ⟨comment', hgap⟩ | hgap
    · rw [hgap]
      exact (Cursor.Passes.char c cs loc).trans (ih comment' _)
    · rw [hgap]
      exact .refl _

theorem passes_tokenAt {loc : Loc} {c : Char} {cs : List Char} {t : Token} {cur : Cursor}
    (h : tokenAt loc c cs = (.ok t, cur)) : t.loc = loc ∧ Cursor.Passes ⟨c :: cs, loc⟩ cur := by
  rw [tokenAt_eq] at h
  split at h
  · cases h
    exact ⟨rfl, .char c cs loc⟩
  · split at h
    · split at h
      · cases h
      · rename_i q after hq
        cases h
        refine ⟨rfl, c :: (cs.takeWhile (· != '"') ++ [q]), ?_, ?_⟩
        · have hsplit := List.takeWhile_append_dropWhile (p := (· != '"')) (l := cs)
          rw [hq] at hsplit
          rw [List.cons_append, List.append_assoc]
          exact congrArg (c :: ·) hsplit.symm
        · show _ = (loc.advance c).advanceBy _
          rw [Loc.advanceBy_append]
          rfl
    · split at h
      · cases h
      · split at h
        · cases h
          refine ⟨rfl, c :: cs.takeWhile (! isDelimiter ·), ?_, rfl⟩
          rw [List.cons_append, List.takeWhile_append_dropWhile]
        · cases h

theorem kind_ne_eof_of_markOf? {c : Char} {kind : TokenKind} (h : markOf? c = some kind) :
    kind ≠ .eof := by
  unfold markOf? at h
  repeat' split at h
  all_goals cases h
  all_goals exact TokenKind.noConfusion

theorem kind_ne_eof_of_tokenAt {loc : Loc} {c : Char} {cs : List Char} {t : Token} {cur : Cursor}
    (h : tokenAt loc c cs = (.ok t, cur)) : t.kind ≠ .eof := by
  rw [tokenAt_eq] at h
  split at h
  · rename_i kind hmark
    cases h
    exact kind_ne_eof_of_markOf? hmark
  · split at h
    · split at h <;> cases h
      exact TokenKind.noConfusion
    · split at h
      · cases h
      · split at h
        · rename_i kind hkind
          cases h
          exact kind_ne_eof_of_classify hkind
        · cases h

namespace Cursor

theorem next_of_gap_end {cur : Cursor} {l : Loc} (h : skipGap false cur.loc cur.rest = ⟨[], l⟩) :
    cur.next = (.ok ⟨.eof, l⟩, ⟨[], l⟩) := by
  unfold next
  rw [h]

theorem next_of_gap_char {cur : Cursor} {c : Char} {cs : List Char} {l : Loc}
    (h : skipGap false cur.loc cur.rest = ⟨c :: cs, l⟩) : cur.next = tokenAt l c cs := by
  unfold next
  rw [h]

/-- A call for the next token gives the end exactly if the gap goes to the end of the text. -/
theorem gap_of_next_eof {cur cur' : Cursor} {t : Token} (h : cur.next = (.ok t, cur'))
    (ht : t.kind = .eof) : skipGap false cur.loc cur.rest = ⟨[], t.loc⟩ ∧ cur' = ⟨[], t.loc⟩ := by
  generalize hgap : skipGap false cur.loc cur.rest = gap
  rcases gap with ⟨_ | ⟨c, cs⟩, l⟩
  · rw [next_of_gap_end hgap] at h
    cases h
    exact ⟨rfl, rfl⟩
  · rw [next_of_gap_char hgap] at h
    exact absurd ht (kind_ne_eof_of_tokenAt h)

theorem passes_next {cur cur' : Cursor} {t : Token} (h : cur.next = (.ok t, cur')) :
    cur.loc.line ≤ t.loc.line ∧ t.loc.line ≤ cur'.loc.line ∧ cur.Passes cur' := by
  have hpass := passes_skipGap false cur.loc cur.rest
  generalize hgap : skipGap false cur.loc cur.rest = gap at hpass
  rcases gap with ⟨_ | ⟨c, cs⟩, l⟩
  · rw [next_of_gap_end hgap] at h
    cases h
    exact ⟨hpass.line_le, Nat.le_refl _, hpass⟩
  · rw [next_of_gap_char hgap] at h
    obtain ⟨hloc, htoken⟩ := passes_tokenAt h
    rw [hloc]
    exact ⟨hpass.line_le, htoken.line_le, hpass.trans htoken⟩

/-- Tokens stand where they are read from or further down. -/
theorem line_le_of_mem (cur : Cursor) {lex : Lexeme} (h : lex ∈ cur.lexemes.1) :
    cur.loc.line ≤ lex.token.loc.line := by
  fun_induction lexemes cur with
  | case1 => cases h
  | case2 => cases h
  | case3 cur t cur' hnext ht _ more ending hmore ih =>
    rw [hmore] at ih
    obtain ⟨hle, -, hpass⟩ := passes_next hnext
    rcases List.mem_cons.mp h with rfl | h
    · exact hle
    · exact Nat.le_trans hpass.line_le (ih h)

/-- A text that can be read is passed to its end. -/
theorem passes_of_eof {cur : Cursor} {ls : List Lexeme} {l : Loc}
    (h : cur.lexemes = (ls, .eof l)) : cur.Passes ⟨[], l⟩ := by
  fun_induction lexemes cur generalizing ls with
  | case1 => cases h
  | case2 cur t cur' hnext ht =>
    cases h
    obtain ⟨-, -, hpass⟩ := passes_next hnext
    obtain ⟨-, rfl⟩ := gap_of_next_eof hnext ht
    exact hpass
  | case3 cur t cur' hnext ht _ more ending hmore ih =>
    cases h
    obtain ⟨-, -, hpass⟩ := passes_next hnext
    exact hpass.trans (ih hmore)

/-- Tokens stand above the end of the text or on its line. -/
theorem le_line_of_mem {cur : Cursor} {ls : List Lexeme} {l : Loc}
    (h : cur.lexemes = (ls, .eof l)) {lex : Lexeme} (hlex : lex ∈ ls) :
    lex.token.loc.line ≤ l.line := by
  fun_induction lexemes cur generalizing ls with
  | case1 => cases h
  | case2 =>
    cases h
    cases hlex
  | case3 cur t cur' hnext ht _ more ending hmore ih =>
    cases h
    obtain ⟨-, hle, -⟩ := passes_next hnext
    rcases List.mem_cons.mp hlex with rfl | hlex
    · exact Nat.le_trans hle (passes_of_eof hmore).line_le
    · exact ih hmore hlex

end Cursor

/-! ## 2. Further down -/

/-- The place so many lines further down. -/
def Loc.down (n : Nat) (l : Loc) : Loc := ⟨l.line + n, l.column⟩

/-- The token, so many lines further down. -/
def Token.down (n : Nat) (t : Token) : Token := ⟨t.kind, t.loc.down n⟩

/-- The error, so many lines further down. -/
def LexError.down (n : Nat) (e : LexError) : LexError := ⟨e.loc.down n, e.cause⟩

/-- The cursor, so many lines further down. -/
def Cursor.down (n : Nat) (cur : Cursor) : Cursor := ⟨cur.rest, cur.loc.down n⟩

/-- The token and the place after it, so many lines further down. -/
def Lexeme.down (n : Nat) (lex : Lexeme) : Lexeme := ⟨lex.token.down n, lex.after.down n⟩

/-- The end of the text or its error, so many lines further down. -/
def Ending.down (n : Nat) : Ending → Ending
  | .eof l => .eof (l.down n)
  | .failed e cur => .failed (e.down n) (cur.down n)

/-- What a call for a token gives, so many lines further down. -/
def downResult (n : Nat) : Except LexError Token × Cursor → Except LexError Token × Cursor
  | (.ok t, cur) => (.ok (t.down n), cur.down n)
  | (.error e, cur) => (.error (e.down n), cur.down n)

section Down

variable (n : Nat)

theorem Loc.advance_down (l : Loc) (c : Char) : (l.down n).advance c = (l.advance c).down n := by
  unfold advance
  split
  · simp only [down, Nat.add_right_comm]
  · rfl

theorem Loc.advanceBy_down (l : Loc) (cs : List Char) :
    (l.down n).advanceBy cs = (l.advanceBy cs).down n := by
  induction cs generalizing l with
  | nil => rfl
  | cons c cs ih =>
    show ((l.down n).advance c).advanceBy cs = _
    rw [Loc.advance_down, ih]
    rfl

/-- A line feed starts a line: what comes after it stands as at the start of a text, but further
    down. -/
theorem Loc.advance_newline (l : Loc) : l.advance '\n' = Loc.start.down l.line := by
  simp only [advance, if_true, start, down, Nat.add_comm]

theorem skipGap_down (comment : Bool) (loc : Loc) (cs : List Char) :
    skipGap comment (loc.down n) cs = (skipGap comment loc cs).down n := by
  induction cs generalizing comment loc with
  | nil => rfl
  | cons c cs ih =>
    rcases skipGap_cons comment c with ⟨comment', hgap⟩ | hgap
    · rw [hgap, hgap, Loc.advance_down]
      exact ih _ _
    · rw [hgap, hgap]
      rfl

theorem tokenAt_down (loc : Loc) (c : Char) (cs : List Char) :
    tokenAt (loc.down n) c cs = downResult n (tokenAt loc c cs) := by
  rw [tokenAt_eq, tokenAt_eq]
  simp only [Loc.advance_down, Loc.advanceBy_down]
  split
  · rfl
  · split
    · split <;> rfl
    · split
      · rfl
      · split <;> rfl

theorem Cursor.next_down (cur : Cursor) : (cur.down n).next = downResult n cur.next := by
  have hdown := skipGap_down n false cur.loc cur.rest
  generalize hgap : skipGap false cur.loc cur.rest = gap at hdown
  rcases gap with ⟨_ | ⟨c, cs⟩, l⟩
  · rw [next_of_gap_end hgap]
    exact next_of_gap_end hdown
  · rw [next_of_gap_char hgap, ← tokenAt_down]
    exact next_of_gap_char hdown

/-- **A text that starts further down has the same tokens further down.** -/
theorem Cursor.lexemes_down (cur : Cursor) :
    (cur.down n).lexemes = (cur.lexemes.1.map (Lexeme.down n), cur.lexemes.2.down n) := by
  fun_induction lexemes cur with
  | case1 cur e cur' hnext =>
    rw [lexemes_eq, next_down, hnext]
    rfl
  | case2 cur t cur' hnext ht =>
    rw [lexemes_eq, next_down, hnext]
    exact if_pos ht
  | case3 cur t cur' hnext ht _ more ending hmore ih =>
    rw [lexemes_eq, next_down, hnext]
    refine (if_neg ht).trans ?_
    rw [ih, hmore]
    rfl

end Down

/-! ## 3. Another line -/

/-- The cursor in a text that goes on with another line. -/
def Cursor.withLine (line : List Char) (cur : Cursor) : Cursor :=
  ⟨cur.rest ++ '\n' :: line, cur.loc⟩

section WithLine

variable (line : List Char)

theorem skipGap_withLine_of_end {comment : Bool} {loc l : Loc} {cs : List Char}
    (h : skipGap comment loc cs = ⟨[], l⟩) :
    skipGap comment loc (cs ++ '\n' :: line) = skipGap false (l.advance '\n') line := by
  induction cs generalizing comment loc with
  | nil =>
    cases h
    -- a line feed ends a comment, and outside of one it is white space
    cases comment <;> rfl
  | cons c cs ih =>
    rw [List.cons_append]
    rcases skipGap_cons comment c with ⟨comment', hgap⟩ | hgap
    · rw [hgap] at h ⊢
      exact ih h
    · rw [hgap] at h
      cases h

theorem skipGap_withLine_of_char {comment : Bool} {loc l : Loc} {c : Char} {cs ds : List Char}
    (h : skipGap comment loc cs = ⟨c :: ds, l⟩) :
    skipGap comment loc (cs ++ '\n' :: line) = ⟨c :: (ds ++ '\n' :: line), l⟩ := by
  induction cs generalizing comment loc with
  | nil => cases h
  | cons b cs ih =>
    rw [List.cons_append]
    rcases skipGap_cons comment b with ⟨comment', hgap⟩ | hgap
    · rw [hgap] at h ⊢
      exact ih h
    · rw [hgap] at h ⊢
      cases h
      rfl

/-- A run that ends inside a text ends there whatever follows the text. -/
theorem span_append_of_dropWhile {α : Type} {p : α → Bool} {x : α} {xs more : List α}
    (h : xs.dropWhile p = x :: more) (ys : List α) :
    (xs ++ ys).takeWhile p = xs.takeWhile p ∧ (xs ++ ys).dropWhile p = x :: (more ++ ys) := by
  induction xs with
  | nil => cases h
  | cons y xs ih =>
    rw [List.cons_append, List.takeWhile_cons, List.takeWhile_cons, List.dropWhile_cons]
    rw [List.dropWhile_cons] at h
    cases hy : p y with
    | true =>
      rw [hy] at h
      obtain ⟨htake, hdrop⟩ := ih h
      exact ⟨congrArg (y :: ·) htake, hdrop⟩
    | false =>
      rw [hy] at h
      cases h
      exact ⟨rfl, rfl⟩

/-- A word ends before a line feed at the latest. -/
theorem word_withLine (cs : List Char) :
    (cs ++ '\n' :: line).takeWhile (! isDelimiter ·) = cs.takeWhile (! isDelimiter ·) ∧
      (cs ++ '\n' :: line).dropWhile (! isDelimiter ·) =
        cs.dropWhile (! isDelimiter ·) ++ '\n' :: line := by
  induction cs with
  | nil => exact ⟨rfl, rfl⟩
  | cons c cs ih =>
    rw [List.cons_append, List.takeWhile_cons, List.takeWhile_cons, List.dropWhile_cons,
      List.dropWhile_cons]
    cases ! isDelimiter c with
    | true => exact ⟨congrArg (c :: ·) ih.1, ih.2⟩
    | false => exact ⟨rfl, rfl⟩

/-- The call failed because of a string that does not end. -/
def LexError.IsOpen : Except LexError Token → Prop
  | .error e => e.cause = .unterminatedString
  | .ok _ => False

theorem tokenAt_withLine {loc : Loc} {c : Char} {cs : List Char} {r : Except LexError Token}
    {cur : Cursor} (h : tokenAt loc c cs = (r, cur)) (hr : ¬ LexError.IsOpen r) :
    tokenAt loc c (cs ++ '\n' :: line) = (r, cur.withLine line) := by
  rw [tokenAt_eq] at h ⊢
  split at h
  · cases h
    rfl
  · split at h
    · rename_i hstring
      rw [if_pos hstring]
      split at h
      · cases h
        exact absurd rfl hr
      · rename_i q after hq
        obtain ⟨htake, hdrop⟩ := span_append_of_dropWhile hq ('\n' :: line)
        rw [htake, hdrop]
        cases h
        rfl
    · rename_i hstring
      rw [if_neg hstring]
      split at h
      · rename_i hdelim
        rw [if_pos hdelim]
        cases h
        rfl
      · rename_i hdelim
        obtain ⟨htake, hdrop⟩ := word_withLine line cs
        rw [if_neg hdelim, htake, hdrop]
        split at h <;> cases h <;> rfl

theorem cause_ne_of_classify {w : List Char} {cause : LexCause} (h : classify w = .error cause) :
    cause ≠ .unterminatedString := by
  unfold classify at h
  dsimp only at h
  split at h
  · split at h <;> cases h
    exact LexCause.noConfusion
  · split at h
    · cases h
    · split at h <;> cases h

/-- A string without end is a double quote that no other follows. -/
theorem open_of_tokenAt {loc : Loc} {c : Char} {cs : List Char} {e : LexError} {cur : Cursor}
    (h : tokenAt loc c cs = (.error e, cur)) (he : e.cause = .unterminatedString) :
    c = '"' ∧ '"' ∉ cs ∧ e = ⟨loc, .unterminatedString⟩ ∧
      cur = ⟨[], (loc.advance '"').advanceBy cs⟩ := by
  by_cases hstring : c = '"'
  · by_cases hquote : '"' ∈ cs
    · obtain ⟨body, rest, rfl, hbody⟩ := List.eq_append_cons_of_mem hquote
      rw [hstring, tokenAt_string hbody] at h
      cases h
    · rw [hstring, tokenAt_openString hquote] at h
      cases h
      exact ⟨hstring, hquote, rfl, rfl⟩
  · rw [tokenAt_eq] at h
    split at h
    · cases h
    · rw [if_neg (by simpa using hstring)] at h
      split at h
      · cases h
        cases he
      · split at h
        · cases h
        · rename_i cause hcause
          cases h
          exact absurd he (cause_ne_of_classify hcause)

theorem tokenAt_withLine_of_open {loc : Loc} {c : Char} {cs : List Char} {e : LexError}
    {cur : Cursor} (h : tokenAt loc c cs = (.error e, cur)) (he : e.cause = .unterminatedString)
    (hline : '"' ∉ line) : ∃ cur', tokenAt loc c (cs ++ '\n' :: line) = (.error e, cur') := by
  obtain ⟨rfl, hquote, rfl, -⟩ := open_of_tokenAt h he
  exact ⟨_, tokenAt_openString (by simp [hquote, hline]) loc⟩

/-- A string that does not end in a text ends at the first double quote of the line after it. -/
theorem tokenAt_closing {loc : Loc} {c : Char} {cs : List Char} {e : LexError} {cur : Cursor}
    (h : tokenAt loc c cs = (.error e, cur)) (he : e.cause = .unterminatedString)
    {front : List Char} (hfront : '"' ∉ front) (rest : List Char) :
    tokenAt loc c (cs ++ '\n' :: (front ++ '"' :: rest)) =
      (.ok ⟨.string (String.ofList (cs ++ '\n' :: front)), e.loc⟩,
        ⟨rest, ((cur.loc.advance '\n').advanceBy front).advance '"'⟩) := by
  obtain ⟨rfl, hquote, rfl, rfl⟩ := open_of_tokenAt h he
  have hbody : '"' ∉ cs ++ '\n' :: front := by simp [hquote, hfront]
  have hsplit : cs ++ '\n' :: (front ++ '"' :: rest) = (cs ++ '\n' :: front) ++ '"' :: rest := by
    simp
  rw [hsplit, tokenAt_string hbody, Loc.advanceBy_append]
  rfl

namespace Cursor

theorem next_withLine {cur cur' : Cursor} {r : Except LexError Token} (h : cur.next = (r, cur'))
    (hr : ¬ LexError.IsOpen r) (heof : ∀ t, r = .ok t → t.kind ≠ .eof) :
    (cur.withLine line).next = (r, cur'.withLine line) := by
  generalize hgap : skipGap false cur.loc cur.rest = gap
  rcases gap with ⟨_ | ⟨c, cs⟩, l⟩
  · rw [next_of_gap_end hgap] at h
    cases h
    exact absurd rfl (heof _ rfl)
  · rw [next_of_gap_char hgap] at h
    rw [next_of_gap_char (skipGap_withLine_of_char line hgap)]
    exact tokenAt_withLine line h hr

/-- Where a text ends, the next token is the first one of the line after it. -/
theorem next_withLine_of_eof {cur cur' : Cursor} {t : Token} (h : cur.next = (.ok t, cur'))
    (ht : t.kind = .eof) :
    (cur.withLine line).next = next ⟨line, t.loc.advance '\n'⟩ := by
  obtain ⟨hgap, -⟩ := gap_of_next_eof h ht
  unfold next
  rw [show skipGap false (cur.withLine line).loc (cur.withLine line).rest = _ from
    skipGap_withLine_of_end line hgap]

/-- A token of the text is read first in the longer text as well. -/
theorem lexemes_withLine_cons {cur cur' : Cursor} {t : Token} (h : cur.next = (.ok t, cur'))
    (ht : t.kind ≠ .eof) : (cur.withLine line).lexemes =
      (⟨t, cur'.loc⟩ :: (cur'.withLine line).lexemes.1, (cur'.withLine line).lexemes.2) := by
  rw [lexemes_eq, next_withLine line h not_false fun _ h => Except.ok.inj h ▸ ht]
  exact if_neg ht

/-- **A text that can be read is read in the same way before another line**, and then that line is
    read as from the start of a text, further down. -/
theorem lexemes_withLine_of_eof {cur : Cursor} {ls : List Lexeme} {l : Loc}
    (h : cur.lexemes = (ls, .eof l)) :
    (cur.withLine line).lexemes =
      (ls ++ (ofChars line).lexemes.1.map (Lexeme.down l.line),
        (ofChars line).lexemes.2.down l.line) := by
  fun_induction lexemes cur generalizing ls with
  | case1 => cases h
  | case2 cur t cur' hnext ht =>
    cases h
    rw [List.nil_append, ← lexemes_down, lexemes_eq, next_withLine_of_eof line hnext ht,
      ← lexemes_eq, Loc.advance_newline]
    rfl
  | case3 cur t cur' hnext ht _ more ending hmore ih =>
    cases h
    rw [lexemes_withLine_cons line hnext ht, ih hmore]
    rfl

/-- **An error stays, but for a string that does not end.** -/
theorem lexemes_withLine_of_failed {cur cur' : Cursor} {ls : List Lexeme} {e : LexError}
    (h : cur.lexemes = (ls, .failed e cur')) (he : e.cause ≠ .unterminatedString) :
    (cur.withLine line).lexemes = (ls, .failed e (cur'.withLine line)) := by
  fun_induction lexemes cur generalizing ls with
  | case1 cur e cur' hnext =>
    cases h
    have hnext' := next_withLine line hnext he (fun _ h => by cases h)
    rw [lexemes_eq, hnext']
  | case2 => cases h
  | case3 cur t cur' hnext ht _ more ending hmore ih =>
    cases h
    rw [lexemes_withLine_cons line hnext ht, ih hmore]

theorem next_withLine_of_open {cur cur' : Cursor} {e : LexError} (h : cur.next = (.error e, cur'))
    (he : e.cause = .unterminatedString) (hline : '"' ∉ line) :
    ∃ cur'', (cur.withLine line).next = (.error e, cur'') := by
  generalize hgap : skipGap false cur.loc cur.rest = gap
  rcases gap with ⟨_ | ⟨c, cs⟩, l⟩
  · rw [next_of_gap_end hgap] at h
    cases h
  · rw [next_of_gap_char hgap] at h
    rw [next_of_gap_char (skipGap_withLine_of_char line hgap)]
    exact tokenAt_withLine_of_open line h he hline

/-- **A double quote ends a string that does not end before it.** -/
theorem next_closing {cur cur' : Cursor} {e : LexError} (h : cur.next = (.error e, cur'))
    (he : e.cause = .unterminatedString) {front : List Char} (hfront : '"' ∉ front)
    (rest : List Char) :
    ∃ body, (cur.withLine (front ++ '"' :: rest)).next = (.ok ⟨.string body, e.loc⟩,
      ⟨rest, ((cur'.loc.advance '\n').advanceBy front).advance '"'⟩) := by
  generalize hgap : skipGap false cur.loc cur.rest = gap
  rcases gap with ⟨_ | ⟨c, cs⟩, l⟩
  · rw [next_of_gap_end hgap] at h
    cases h
  · rw [next_of_gap_char hgap] at h
    rw [next_of_gap_char (skipGap_withLine_of_char _ hgap)]
    exact ⟨_, tokenAt_closing h he hfront rest⟩

/-- **A line without a double quote repairs no error.** -/
theorem lexemes_withLine_of_no_quote {cur cur' : Cursor} {ls : List Lexeme} {e : LexError}
    (h : cur.lexemes = (ls, .failed e cur')) (hline : '"' ∉ line) :
    ∃ cur'', (cur.withLine line).lexemes = (ls, .failed e cur'') := by
  by_cases he : e.cause = .unterminatedString
  · fun_induction lexemes cur generalizing ls with
    | case1 cur e cur' hnext =>
      cases h
      obtain ⟨cur'', hnext'⟩ := next_withLine_of_open line hnext he hline
      exact ⟨cur'', by rw [lexemes_eq, hnext']⟩
    | case2 => cases h
    | case3 cur t cur' hnext ht _ more ending hmore ih =>
      cases h
      obtain ⟨cur'', hrest⟩ := ih hmore
      exact ⟨cur'', by rw [lexemes_withLine_cons line hnext ht, hrest]⟩
  · exact ⟨_, lexemes_withLine_of_failed line h he⟩

/-- **The tokens found so far stay.** -/
theorem lexemes_prefix_withLine (cur : Cursor) :
    cur.lexemes.1 <+: (cur.withLine line).lexemes.1 := by
  fun_induction lexemes cur with
  | case1 => exact List.nil_prefix
  | case2 => exact List.nil_prefix
  | case3 cur t cur' hnext ht _ more ending hmore ih =>
    rw [hmore] at ih
    rw [lexemes_withLine_cons line hnext ht]
    exact List.cons_prefix_cons.mpr ⟨rfl, ih⟩

end Cursor

end WithLine

end SmallLisp
