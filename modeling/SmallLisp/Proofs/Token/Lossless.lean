import SmallLisp.Proofs.Token.Words

/-!
# The lexer loses nothing

However often a lexer is asked for the next token, also after errors, its cursor stands where the
lines and columns of what it has passed say, and what it has passed are the spellings of the tokens
it gave with gaps between them.

* `Passage`: what one call may pass over and give;
* `exists_passage`: what it does pass over and give is of this kind;
* `Cursor.next_next_of_stuck`: an error that leaves the cursor where it is comes again;
* `Accounts`: the calls of a run, each from where the one before it stopped.
-/

namespace SmallLisp

/-! ## 1. Places -/

/-- Where a text is left after the characters `cs`: lines and columns count from one, and a column
    counts the characters since the last line feed. -/
def placeAfter (cs : List Char) : Loc :=
  ⟨1 + cs.count '\n', 1 + (cs.reverse.takeWhile (· != '\n')).length⟩

theorem advance_placeAfter (cs : List Char) (c : Char) :
    (placeAfter cs).advance c = placeAfter (cs ++ [c]) := by
  by_cases hc : c = '\n'
  · simp [placeAfter, Loc.advance, hc]
    omega
  · simp [placeAfter, Loc.advance, hc]
    omega

theorem advanceBy_placeAfter (cs ds : List Char) :
    (placeAfter cs).advanceBy ds = placeAfter (cs ++ ds) := by
  induction ds generalizing cs with
  | nil => rw [List.append_nil]; rfl
  | cons d ds ih =>
    show ((placeAfter cs).advance d).advanceBy ds = _
    rw [advance_placeAfter, ih, List.append_assoc]
    rfl

/-! ## 2. Spellings -/

/-- The characters of a token. -/
def TokenKind.lexeme : TokenKind → List Char
  | eof => []
  | number text _ => text.toList
  | boolean b => ['#', if b then 't' else 'f']
  | string s => '"' :: (s.toList ++ ['"'])
  | atom name => name.toList
  | opener b => [b.openChar]
  | closer b => [b.closeChar]
  | quote => ['\'']

theorem lexeme_of_markOf? {c : Char} {kind : TokenKind} (h : markOf? c = some kind) :
    kind.lexeme = [c] := by
  unfold markOf? at h
  simp only [beq_iff_eq] at h
  repeat' split at h
  all_goals cases h
  all_goals subst c; rfl

theorem lexeme_of_classify {w : List Char} {kind : TokenKind} (h : classify w = .ok kind) :
    kind.lexeme = w := by
  by_cases hstart : StartsNumber w
  · by_cases hnumber : IsNumber w
    · obtain ⟨n, rfl, hover⟩ := hnumber
      rw [classify_number hstart hover] at h
      cases h
      exact String.toList_ofList
    · rw [classify_malformed hstart hnumber] at h
      cases h
  · rw [classify_other hstart] at h
    cases h
    split
    · rename_i hw
      exact hw.symm
    · split
      · rename_i hw
        exact hw.symm
      · exact String.toList_ofList

theorem cause_of_classify {w : List Char} {cause : LexCause} (h : classify w = .error cause) :
    StartsNumber w ∧ cause = .malformedNumber (String.ofList w) := by
  by_cases hstart : StartsNumber w
  · refine ⟨hstart, ?_⟩
    by_cases hnumber : IsNumber w
    · obtain ⟨n, rfl, hover⟩ := hnumber
      rw [classify_number hstart hover] at h
      cases h
    · rw [classify_malformed hstart hnumber] at h
      cases h
      rfl
  · rw [classify_other hstart] at h
    cases h

/-! ## 3. One token -/

/-- What the lexer may give for a text in which a token is due, what it passes over and what is left
    then: a token with its characters; nothing, and a bad token or a character that no token starts
    with is left; or all of a string without end. -/
inductive Reading (loc : Loc) : Except LexError Token → List Char → List Char → Prop where
  | token {kind : TokenKind} {rest : List Char} : kind ≠ .eof → kind.lexeme ≠ [] →
      Reading loc (.ok ⟨kind, loc⟩) kind.lexeme rest
  | badToken {w rest : List Char} : StartsNumber w → IsWord w → EndsWord rest →
      Reading loc (.error ⟨loc, .malformedNumber (String.ofList w)⟩) [] (w ++ rest)
  | badChar {c : Char} {rest : List Char} : c = Char.ofNat 0 ∨ c = '\x60' →
      Reading loc (.error ⟨loc, .unexpectedChar c⟩) [] (c :: rest)
  | openString {body : List Char} : '"' ∉ body →
      Reading loc (.error ⟨loc, .unterminatedString⟩) ('"' :: body) []

/-- The result and the cursor after it are those of a reading from `loc` on. -/
def Reading.Leads (loc : Loc) (cs : List Char) (call : Except LexError Token × Cursor) : Prop :=
  ∃ passed, cs = passed ++ call.2.rest ∧ call.2.loc = loc.advanceBy passed ∧
    Reading loc call.1 passed call.2.rest

/-- A string ends at its second double quote or not at all. -/
theorem leads_string (loc : Loc) (cs : List Char) :
    Reading.Leads loc ('"' :: cs) (tokenAt loc '"' cs) := by
  by_cases hquote : '"' ∈ cs
  · obtain ⟨body, rest, rfl, hbody⟩ := List.eq_append_cons_of_mem hquote
    rw [tokenAt_string hbody]
    refine ⟨(TokenKind.string (String.ofList body)).lexeme, ?_, ?_,
      .token TokenKind.noConfusion (List.cons_ne_nil _ _)⟩
    · simp [TokenKind.lexeme]
    · simp [TokenKind.lexeme, Loc.advanceBy]
  · rw [tokenAt_openString hquote]
    exact ⟨'"' :: cs, (List.append_nil _).symm, rfl, .openString hquote⟩

/-- A word goes to the next delimiter. -/
theorem leads_word (loc : Loc) {c : Char} (hdelim : isDelimiter c = false) (cs : List Char) :
    Reading.Leads loc (c :: cs) (tokenAt loc c cs) := by
  have hsplit := List.takeWhile_append_dropWhile (p := (! isDelimiter ·)) (l := cs)
  have hword : IsWord (c :: cs.takeWhile (! isDelimiter ·)) := by
    refine ⟨List.cons_ne_nil _ _, fun d hd => ?_⟩
    rcases List.mem_cons.mp hd with rfl | hd
    · exact hdelim
    · simpa using List.mem_takeWhile_imp hd
  have hends := endsWord_dropWhile cs
  generalize cs.takeWhile (! isDelimiter ·) = w at hsplit hword
  generalize cs.dropWhile (! isDelimiter ·) = rest at hsplit hends
  subst hsplit
  cases hclass : classify (c :: w) with
  | ok kind =>
    have hlexeme := lexeme_of_classify hclass
    rw [tokenAt_word hword hends loc hclass, ← hlexeme]
    refine ⟨kind.lexeme, ?_, rfl, .token (kind_ne_eof_of_classify hclass) ?_⟩
    · rw [hlexeme]
      rfl
    · rw [hlexeme]
      exact hword.1
  | error cause =>
    obtain ⟨hstart, rfl⟩ := cause_of_classify hclass
    rw [tokenAt_badWord hword hends loc hclass]
    exact ⟨[], rfl, rfl, .badToken hstart hword hends⟩

theorem leads_mark (loc : Loc) {c : Char} {kind : TokenKind} (h : markOf? c = some kind)
    (cs : List Char) : Reading.Leads loc (c :: cs) (tokenAt loc c cs) := by
  have hlexeme := lexeme_of_markOf? h
  rw [tokenAt_eq]
  rw [h]
  refine ⟨kind.lexeme, ?_, ?_, .token (kind_ne_eof_of_markOf? h) ?_⟩
  · rw [hlexeme]
    rfl
  · rw [hlexeme]
    rfl
  · rw [hlexeme]
    exact List.cons_ne_nil _ _

/-- Of the characters that are no part of a gap, two start no token. -/
theorem bad_of_markOf? {c : Char} (hc : EndsGap c) (hdelim : isDelimiter c = true)
    (hstring : c ≠ '"') (hmark : markOf? c = none) : c = Char.ofNat 0 ∨ c = '\x60' := by
  by_cases hback : c = '\x60'
  · exact .inr hback
  · refine .inl (eq_nul_of_isDelimiter hdelim hc fun hmem => ?_)
    simp only [markChars, List.mem_cons, List.not_mem_nil, or_false] at hmem
    rcases hmem with rfl | rfl | rfl | rfl | rfl | rfl | rfl | rfl | rfl
    all_goals first | exact absurd rfl hstring | exact absurd rfl hback | cases hmark

/-- **What `tokenAt` gives, and where it goes.** -/
theorem leads_tokenAt (loc : Loc) {c : Char} (hc : EndsGap c) (cs : List Char) :
    Reading.Leads loc (c :: cs) (tokenAt loc c cs) := by
  by_cases hstring : c = '"'
  · rw [hstring]
    exact leads_string loc cs
  cases hdelim : isDelimiter c with
  | false => exact leads_word loc hdelim cs
  | true =>
    cases hmark : markOf? c with
    | some kind => exact leads_mark loc hmark cs
    | none =>
      have htoken : tokenAt loc c cs = (.error ⟨loc, .unexpectedChar c⟩, ⟨c :: cs, loc⟩) := by
        simp [tokenAt_eq, hmark, hstring, hdelim]
      rw [htoken]
      exact ⟨[], rfl, rfl, .badChar (bad_of_markOf? hc hdelim hstring hmark)⟩

/-! ## 4. One call -/

/-- What a call for the next token may give after the characters `before`, what it passes over and
    what is left then: a gap to the end of the text, or a gap and then a reading. What it gives is
    placed behind the gap. -/
inductive Passage (before : List Char) :
    Except LexError Token → List Char → List Char → Prop where
  | toEnd {gap : List Char} : FinalGap gap →
      Passage before (.ok ⟨.eof, placeAfter (before ++ gap)⟩) gap []
  | afterGap {gap passed rest : List Char} {result : Except LexError Token} : Gap gap →
      Reading (placeAfter (before ++ gap)) result passed rest →
      Passage before result (gap ++ passed) rest

/-- The call failed and left the cursor where it found the fault. -/
def IsStuck : Except LexError Token → Prop
  | .ok _ => False
  | .error e => e.cause ≠ .unterminatedString

theorem Reading.passed_of_isStuck {loc : Loc} {result : Except LexError Token}
    {passed rest : List Char} (h : Reading loc result passed rest) (hstuck : IsStuck result) :
    passed = [] := by
  cases h with
  | token => exact hstuck.elim
  | badToken => rfl
  | badChar => rfl
  | openString => exact absurd rfl hstuck

namespace Cursor

variable {cur : Cursor}

/-- **Step.** A call passes over what it gives, and the cursor keeps count of its place. -/
theorem exists_passage {before : List Char} (hloc : cur.loc = placeAfter before) :
    ∃ passed, cur.rest = passed ++ cur.next.2.rest ∧
      cur.next.2.loc = placeAfter (before ++ passed) ∧
      Passage before cur.next.1 passed cur.next.2.rest := by
  rcases gapFirst cur.rest with hend | ⟨gap, c, tail, hrest, hgap, hc⟩
  · rw [next_finalGap hend, hloc, advanceBy_placeAfter]
    exact ⟨cur.rest, (List.append_nil _).symm, rfl, .toEnd hend⟩
  · rw [next_gap hrest hgap hc, hloc, advanceBy_placeAfter, hrest]
    obtain ⟨passed, hpassed, hplace, hreading⟩ :=
      leads_tokenAt (placeAfter (before ++ gap)) hc tail
    refine ⟨gap ++ passed, ?_, ?_, .afterGap hgap hreading⟩
    · rw [List.append_assoc, ← hpassed]
    · rw [hplace, advanceBy_placeAfter, List.append_assoc]

/-- **An error that leaves the cursor where it is comes again.** -/
theorem next_next_of_stuck (h : IsStuck cur.next.1) : cur.next.2.next = cur.next := by
  rcases gapFirst cur.rest with hend | ⟨gap, c, tail, hrest, hgap, hc⟩
  · rw [next_finalGap hend] at h
    exact h.elim
  · have hnext := next_gap hrest hgap hc
    obtain ⟨passed, hpassed, hplace, hreading⟩ := leads_tokenAt (cur.loc.advanceBy gap) hc tail
    rw [← hnext] at hpassed hplace hreading
    obtain rfl := hreading.passed_of_isStuck h
    have hagain : cur.next.2.next = tokenAt cur.next.2.loc c tail :=
      next_gap hpassed.symm .nil hc
    rw [hagain, hplace]
    exact hnext.symm

end Cursor

/-! ## 5. A run of calls -/

/-- The calls account for the text from behind the characters `before` on. Each one starts where the
    one before it stopped, and together with what was passed before and what is left, what it passes
    over is the text. Behind an error that leaves the cursor where it is all calls are the same. -/
inductive Accounts (text : List Char) :
    List Char → List (Except LexError Token × Cursor) → Prop where
  | nil {before : List Char} : Accounts text before []
  | call {before passed : List Char} {result : Except LexError Token} {cur : Cursor}
      {more : List (Except LexError Token × Cursor)} :
      text = before ++ passed ++ cur.rest → cur.loc = placeAfter (before ++ passed) →
      Passage before result passed cur.rest →
      (IsStuck result → ∀ later ∈ more, later = (result, cur)) →
      Accounts text (before ++ passed) more → Accounts text before ((result, cur) :: more)

theorem length_steps (n : Nat) (cur : Cursor) : (cur.steps n).length = n := by
  induction n generalizing cur with
  | zero => rfl
  | succ n ih => exact congrArg (· + 1) (ih _)

theorem steps_of_stuck {cur : Cursor} {result : Except LexError Token}
    (h : cur.next = (result, cur)) (n : Nat) : ∀ later ∈ cur.steps n, later = (result, cur) := by
  induction n with
  | zero => exact fun later hlater => by cases hlater
  | succ n ih =>
    intro later hlater
    rw [Cursor.steps, h] at hlater
    rcases List.mem_cons.mp hlater with rfl | hlater
    · rfl
    · exact ih later hlater

/-- **Run.** -/
theorem accounts_steps {text before : List Char} {cur : Cursor}
    (htext : text = before ++ cur.rest) (hloc : cur.loc = placeAfter before) (n : Nat) :
    Accounts text before (cur.steps n) := by
  induction n generalizing before cur with
  | zero => exact .nil
  | succ n ih =>
    obtain ⟨passed, hrest, hplace, hpassage⟩ := Cursor.exists_passage hloc
    have htext' : text = before ++ passed ++ cur.next.2.rest := by
      rw [htext, hrest, List.append_assoc]
    exact .call htext' hplace hpassage
      (fun hstuck => steps_of_stuck (Cursor.next_next_of_stuck hstuck) n) (ih htext' hplace)

/-- **Lexing is lossless and keeps count of places.** For every text and every number of calls for
    the next token the calls account for the text: the cursor is always at the place that lines and
    columns give, what has been passed are the tokens' own characters and the gaps between them (and
    a string without end), tokens and errors are placed at their first characters, every token but
    the end moves the cursor on, and a bad token or character keeps it and comes again. -/
theorem lexing_accounts (text : List Char) (n : Nat) :
    ((Cursor.ofChars text).steps n).length = n ∧
      Accounts text [] ((Cursor.ofChars text).steps n) := by
  have hrest : text = [] ++ (Cursor.ofChars text).rest := rfl
  exact ⟨length_steps n _, accounts_steps hrest rfl n⟩

end SmallLisp
