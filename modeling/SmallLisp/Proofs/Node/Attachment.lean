import SmallLisp.Proofs.Node.Continuation
import SmallLisp.Proofs.Node.Lines
import SmallLisp.Repl.Basic

/-!
# Quotes at the end of a line

A quote may stand on another line than what it quotes. Then the text up to the end of the line of
the quote ends behind the quote, and is not taken for unfinished. This file shows that there is no
other way to come to such a text: if a text goes on, line after line, with lines of which none ends
behind a quote, then every quote stands on the line of what follows it (`attached_withLine`).

In between a text may end inside a string. So what is carried from line to line is said of the
tokens and of the place where a string starts that has not ended (`Cursor.starts`).
-/

namespace SmallLisp

/-! ## 1. Places on one line -/

theorem loc_of_tokenAt_error {loc : Loc} {c : Char} {cs : List Char} {e : LexError} {cur : Cursor}
    (h : tokenAt loc c cs = (.error e, cur)) : e.loc = loc := by
  rw [tokenAt_eq] at h
  repeat' split at h
  all_goals cases h
  all_goals rfl

namespace Cursor

/-- The second cursor is on the line of the first, and the line goes on behind it. -/
theorem Passes.on_line {cur cur' : Cursor} (h : cur.Passes cur') (hline : '\n' ∉ cur.rest) :
    cur'.loc.line = cur.loc.line ∧ '\n' ∉ cur'.rest := by
  obtain ⟨cs, hrest, hloc⟩ := h
  rw [hrest, List.mem_append, not_or] at hline
  refine ⟨?_, hline.2⟩
  rw [hloc, Loc.line_advanceBy, List.count_eq_zero_of_not_mem hline.1, Nat.add_zero]

theorem loc_of_next_error {cur cur' : Cursor} {e : LexError} (h : cur.next = (.error e, cur'))
    (hline : '\n' ∉ cur.rest) : e.loc.line = cur.loc.line := by
  have hpass := passes_skipGap false cur.loc cur.rest
  generalize hgap : skipGap false cur.loc cur.rest = gap at hpass
  rcases gap with ⟨_ | ⟨c, cs⟩, l⟩
  · rw [next_of_gap_end hgap] at h
    cases h
  · rw [next_of_gap_char hgap] at h
    rw [loc_of_tokenAt_error h]
    exact (hpass.on_line hline).1

theorem loc_of_next_ok {cur cur' : Cursor} {t : Token} (h : cur.next = (.ok t, cur'))
    (hline : '\n' ∉ cur.rest) : t.loc.line = cur.loc.line := by
  obtain ⟨habove, hbelow, hpass⟩ := passes_next h
  have hsame := (hpass.on_line hline).1
  omega

/-! ## 2. Where tokens start -/

/-- The tokens of a text. If an error ends it, the place of that error comes last, as that of a
    string. -/
def starts (cur : Cursor) : List Token :=
  cur.lexemes.1.map Lexeme.token ++ match cur.lexemes.2 with
    | .failed e _ => [⟨.string "", e.loc⟩]
    | .eof _ => []

theorem starts_of_eof {cur : Cursor} {ls : List Lexeme} {l : Loc}
    (h : cur.lexemes = (ls, .eof l)) : cur.starts = ls.map Lexeme.token := by
  unfold starts
  rw [h]
  exact List.append_nil _

theorem starts_of_failed {cur cur' : Cursor} {ls : List Lexeme} {e : LexError}
    (h : cur.lexemes = (ls, .failed e cur')) :
    cur.starts = ls.map Lexeme.token ++ [⟨.string "", e.loc⟩] := by
  unfold starts
  rw [h]

/-- On a single line everything starts on that line. -/
theorem line_of_mem_starts {cur : Cursor} (hline : '\n' ∉ cur.rest) :
    ∀ t ∈ cur.starts, t.loc.line = cur.loc.line := by
  unfold starts
  fun_induction lexemes cur with
  | case1 cur e cur' hnext =>
    intro t ht
    obtain rfl := List.mem_singleton.mp ht
    exact loc_of_next_error hnext hline
  | case2 => exact fun t ht => absurd ht List.not_mem_nil
  | case3 cur t cur' hnext ht _ more ending hmore ih =>
    obtain ⟨hsame, hline'⟩ := (passes_next hnext).2.2.on_line hline
    rw [hmore, hsame] at ih
    intro u hu
    rcases List.mem_cons.mp hu with rfl | hu
    · exact loc_of_next_ok hnext hline
    · exact ih hline' u hu

/-- The first double quote of a line ends the string that is open, and then the line goes on. -/
theorem lexemes_closing {cur cur' : Cursor} {ls : List Lexeme} {e : LexError}
    (h : cur.lexemes = (ls, .failed e cur')) (he : e.cause = .unterminatedString)
    {front : List Char} (hfront : '"' ∉ front) (rest : List Char) :
    ∃ body after, (cur.withLine (front ++ '"' :: rest)).lexemes =
      (ls ++ ⟨⟨.string body, e.loc⟩, after⟩ :: (lexemes ⟨rest, after⟩).1,
        (lexemes ⟨rest, after⟩).2) := by
  fun_induction lexemes cur generalizing ls with
  | case1 cur e cur' hnext =>
    cases h
    obtain ⟨body, hclosed⟩ := next_closing hnext he hfront rest
    refine ⟨body, ((cur'.loc.advance '\n').advanceBy front).advance '"', ?_⟩
    rw [lexemes_eq, hclosed]
    exact if_neg TokenKind.noConfusion
  | case2 => cases h
  | case3 cur t cur' hnext ht _ more ending hmore ih =>
    cases h
    obtain ⟨body, after, hrest⟩ := ih hmore
    refine ⟨body, after, ?_⟩
    rw [lexemes_withLine_cons _ hnext ht, hrest]
    rfl

theorem starts_withLine_of_eof {cur : Cursor} {ls : List Lexeme} {l : Loc}
    (h : cur.lexemes = (ls, .eof l)) (line : List Char) :
    (cur.withLine line).starts =
      ls.map Lexeme.token ++ ((ofChars line).down l.line).starts := by
  unfold starts
  rw [lexemes_withLine_of_eof line h, lexemes_down, List.map_append, List.append_assoc]

theorem starts_closing {cur cur' : Cursor} {ls : List Lexeme} {e : LexError}
    (h : cur.lexemes = (ls, .failed e cur')) (he : e.cause = .unterminatedString)
    {front : List Char} (hfront : '"' ∉ front) (rest : List Char) :
    ∃ body after, (cur.withLine (front ++ '"' :: rest)).starts =
      (ls.map Lexeme.token ++ [⟨.string body, e.loc⟩]) ++ starts ⟨rest, after⟩ := by
  obtain ⟨body, after, hlex⟩ := lexemes_closing h he hfront rest
  refine ⟨body, after, ?_⟩
  unfold starts
  rw [hlex, List.map_append, List.map_cons, List.append_assoc, List.append_assoc,
    List.cons_append, List.singleton_append]

end Cursor

/-- What stands behind a quote stands on its line. -/
def Attached (t u : Token) : Prop := t.kind = .quote → u.loc.line = t.loc.line

theorem quotesAttached_iff (cs : List Char) :
    QuotesAttached cs ↔ (tokenize cs).1.IsChain Attached := Iff.rfl

theorem attached_oneLine {cur : Cursor} (hline : '\n' ∉ cur.rest) :
    cur.starts.IsChain Attached := by
  have hlines := Cursor.line_of_mem_starts hline
  refine (List.pairwise_of_forall_mem_list fun t ht u hu => ?_).isChain
  intro _
  rw [hlines t ht, hlines u hu]

/-- A line below another text: nothing of the line stands behind a quote of the text. -/
theorem attached_append {front : List Token} {cur : Cursor} (hfront : front.IsChain Attached)
    (hlast : ∀ t ∈ front.getLast?, t.kind ≠ .quote) (hline : '\n' ∉ cur.rest) :
    (front ++ cur.starts).IsChain Attached := by
  refine List.isChain_append.mpr ⟨hfront, attached_oneLine hline, ?_⟩
  intro t ht u _ hquote
  exact absurd hquote (hlast t ht)

/-! ## 3. Another line -/

/-- Another line may follow: the text ends inside a string, or its last token is no quote. -/
def Cursor.EndsFree (cur : Cursor) : Prop :=
  match cur.lexemes.2 with
  | .failed e _ => e.cause = .unterminatedString
  | .eof _ => ∀ t ∈ (cur.lexemes.1.map Lexeme.token).getLast?, t.kind ≠ .quote

/-- **Quotes stay attached from line to line**, as long as no line ends behind one. -/
theorem attached_withLine {cur : Cursor} (h : cur.starts.IsChain Attached) (hend : cur.EndsFree)
    {line : List Char} (hline : '\n' ∉ line) : (cur.withLine line).starts.IsChain Attached := by
  unfold Cursor.EndsFree at hend
  generalize hlex : cur.lexemes = lexed at hend
  rcases lexed with ⟨ls, l | ⟨e, cur'⟩⟩
  · rw [Cursor.starts_of_eof hlex] at h
    rw [Cursor.starts_withLine_of_eof hlex]
    exact attached_append h hend hline
  · rw [Cursor.starts_of_failed hlex] at h
    by_cases hquote : '"' ∈ line
    · obtain ⟨front, rest, rfl, hfront⟩ := List.eq_append_cons_of_mem hquote
      obtain ⟨body, after, hstarts⟩ := Cursor.starts_closing hlex hend hfront rest
      have hstring : (ls.map Lexeme.token ++ [(⟨.string body, e.loc⟩ : Token)]).IsChain
          Attached := by
        -- a string is read now where one was open, and it stands at the same place
        rw [List.isChain_append] at h ⊢
        refine ⟨h.1, .singleton _, fun t ht u hu => ?_⟩
        cases hu
        exact h.2.2 t ht ⟨.string "", e.loc⟩ rfl
      rw [hstarts]
      refine attached_append hstring ?_ ?_
      · simp
      · intro hmem
        exact hline (List.mem_append_right front (List.mem_cons_of_mem _ hmem))
    · obtain ⟨cur'', hlex'⟩ := Cursor.lexemes_withLine_of_no_quote line hlex hquote
      rw [Cursor.starts_of_failed hlex']
      exact h

theorem starts_of_parseChars {cs : List Char} {ns : List Node} (h : parseChars cs = .ok ns) :
    (Cursor.ofChars cs).starts = (tokenize cs).1 := by
  obtain ⟨ls, l, -, hlex, -, -⟩ := parseChars_eq_ok.mp h
  rw [Cursor.starts_of_eof hlex]
  unfold tokenize
  rw [hlex]

/-! ## 4. Texts that are unfinished -/

theorem ReadError.isCutOff_iff (e : ReadError) : e.isCutOff = true ↔
    e.isUnfinished = true ∨ ∃ loc, e = .structural ⟨loc, .quoteAtEnd⟩ := by
  rcases e with ⟨loc, cause⟩ | ⟨loc, cause⟩ <;> cases cause <;> simp [isCutOff, isUnfinished]

namespace Scan

/-- What is wrong with a token is not repaired by more lines. -/
theorem not_isUnfinished_of_run {s : Scan} {ts : List Token} {e : StructureError}
    (h : s.run ts = .error e) : ¬ (ReadError.structural e).isUnfinished = true := by
  induction ts generalizing s with
  | nil => cases h
  | cons t ts ih =>
    unfold run at h
    split at h
    · exact ih h
    · rename_i hstep
      cases h
      intro hopen
      have hcut := (ReadError.isCutOff_iff _).mpr (.inl hopen)
      rw [Delimiters.not_isCutOff_of_fault? (step_eq_error_iff.mp hstep)] at hcut
      cases hcut

/-- A quote that comes last waits. -/
theorem quotes_of_run {s : Scan} {ts : List Token} {t : Token} (ht : t.kind = .quote)
    (h : empty.run (ts ++ [t]) = .ok s) : s.quotes ≠ [] := by
  obtain ⟨s', -, hstep⟩ := run_of_append h
  rcases t with ⟨kind, loc⟩
  cases ht
  cases hstep
  exact List.cons_ne_nil _ _

end Scan

/-- **An unfinished text does not end behind a quote.** -/
theorem endsFree_of_isUnfinished {cs : List Char} {e : ReadError} (h : parseChars cs = .error e)
    (he : e.isUnfinished = true) : (Cursor.ofChars cs).EndsFree := by
  unfold Cursor.EndsFree
  rw [parseChars_eq_readFrom] at h
  unfold Scan.readFrom Scan.readTokens at h
  generalize (Cursor.ofChars cs).lexemes = lexed at h ⊢
  rcases lexed with ⟨ls, ending⟩
  dsimp only at h ⊢
  cases hrun : Scan.empty.run (ls.map Lexeme.token) with
  | error e' =>
    rw [hrun] at h
    cases h
    exact absurd he (Scan.not_isUnfinished_of_run hrun)
  | ok s =>
    rw [hrun] at h
    cases ending with
    | failed e' cur =>
      cases h
      rcases e' with ⟨loc, cause⟩
      cases cause with
      | unterminatedString => rfl
      | _ => cases he
    | eof l =>
      intro t ht hquote
      obtain ⟨ts, hts⟩ := List.getLast?_eq_some_iff.mp ht
      rw [hts] at hrun
      have hwaits := Scan.quotes_of_run hquote hrun
      rcases s with ⟨done, stack, _ | ⟨q, quotes⟩⟩
      · exact hwaits rfl
      · cases h
        cases he

end SmallLisp
