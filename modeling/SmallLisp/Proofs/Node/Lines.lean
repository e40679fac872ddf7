import Mathlib.Data.List.Chain
import SmallLisp.Proofs.Node.Grammar
import SmallLisp.Proofs.Token.Lines

/-!
# Reading line by line

What is read from a text does not depend on where the text stands: from a text further down come the
same trees and errors further down. So a text that can be read and another line are read one after
the other (`parseChars_withLine`).

The other way round, if a text and another line can be read together, then the text alone can be
read or is unfinished: a list or a string is still open (`parseChars_of_withLine`). There is one
exception, a quote at the end of the text.
-/

namespace SmallLisp

/-! ## 1. Trees and errors further down -/

/-- The place of a node, so many lines further down. -/
def NodeInfo.down (n : Nat) (i : NodeInfo) : NodeInfo := ⟨i.loc.down n, i.quoted⟩

namespace Node

mutual

/-- The tree, so many lines further down. -/
def down (n : Nat) : Node → Node
  | unit i => unit (i.down n)
  | atom i name => atom (i.down n) name
  | string i text => string (i.down n) text
  | number i x => number (i.down n) x
  | bool i b => bool (i.down n) b
  | list i items => list (i.down n) (downAll n items)
  | progn i items => progn (i.down n) (downAll n items)

/-- The trees, so many lines further down. -/
def downAll (n : Nat) : List Node → List Node
  | [] => []
  | m :: more => m.down n :: downAll n more

end

theorem downAll_eq_map (n : Nat) (ms : List Node) : downAll n ms = ms.map (down n) := by
  induction ms with
  | nil => rfl
  | cons m ms ih => rw [downAll, List.map_cons, ih]

theorem down_withQuote (n : Nat) (m : Node) (q : Bool) :
    (m.withQuote q).down n = (m.down n).withQuote q := by
  cases m <;> rfl

end Node

theorem underQuotes_down (n : Nat) (m : Node) (qs : List Loc) :
    (underQuotes m qs).down n = underQuotes (m.down n) (qs.map (Loc.down n)) := by
  induction qs generalizing m with
  | nil => rfl
  | cons q qs ih =>
    cases qs with
    | nil => exact m.down_withQuote n true
    | cons q' qs => exact ih _

/-- The cause, so many lines further down. -/
def StructureCause.down (n : Nat) : StructureCause → StructureCause
  | mismatched opened openedAt closed => mismatched opened (openedAt.down n) closed
  | c => c

/-- The error, so many lines further down. -/
def StructureError.down (n : Nat) (e : StructureError) : StructureError :=
  ⟨e.loc.down n, e.cause.down n⟩

/-- The error, so many lines further down. -/
def ReadError.down (n : Nat) : ReadError → ReadError
  | lexical e => lexical (e.down n)
  | structural e => structural (e.down n)

/-! ## 2. Scans further down -/

/-- The open list, so many lines further down. -/
def OpenList.down (n : Nat) (o : OpenList) : OpenList :=
  ⟨o.bracket, o.loc.down n, o.quotes.map (Loc.down n), o.parts.map (Node.down n)⟩

namespace Scan

/-- The scan, so many lines further down and after other expressions. -/
def below (front : List Node) (n : Nat) (s : Scan) : Scan :=
  ⟨s.done.map (Node.down n) ++ front, s.stack.map (OpenList.down n), s.quotes.map (Loc.down n)⟩

section Below

variable (front : List Node) (n : Nat)

theorem add_below (s : Scan) (m : Node) :
    (s.below front n).add (m.down n) = (s.add m).below front n := by
  rcases s with ⟨done, _ | ⟨top, below⟩, quotes⟩ <;> rfl

/-- The list that a closing bracket ends, further down. -/
theorem list_down (o : OpenList) :
    underQuotes (.list ⟨o.loc.down n, false⟩ (o.parts.map (Node.down n)).reverse)
        (o.quotes.map (Loc.down n)) =
      (underQuotes (.list ⟨o.loc, false⟩ o.parts.reverse) o.quotes).down n := by
  rw [underQuotes_down, Node.down, Node.downAll_eq_map, List.map_reverse]
  rfl

theorem close_below (s : Scan) (loc : Loc) (b : Bracket) :
    (s.below front n).close (loc.down n) b =
      ((s.close loc b).map (below front n)).mapError (StructureError.down n) := by
  rcases s with ⟨done, stack, _ | ⟨q, quotes⟩⟩
  · rcases stack with _ | ⟨top, stack⟩
    · rfl
    · by_cases hb : top.bracket = b
      · have hclose : close ⟨done, top :: stack, []⟩ loc b = .ok (add ⟨done, stack, []⟩
            (underQuotes (.list ⟨top.loc, false⟩ top.parts.reverse) top.quotes)) := if_pos hb
        rw [hclose]
        refine (if_pos hb).trans (congrArg Except.ok ?_)
        rw [← add_below, ← list_down]
        rfl
      · have hclose : close ⟨done, top :: stack, []⟩ loc b =
            .error ⟨loc, .mismatched top.bracket top.loc b⟩ := if_neg hb
        rw [hclose]
        exact if_neg hb
  · rfl

theorem step_below (s : Scan) (t : Token) : (s.below front n).step (t.down n) =
    ((s.step t).map (below front n)).mapError (StructureError.down n) := by
  have hleaf (m : Node) :
      (s.below front n).add (underQuotes (m.down n) (s.quotes.map (Loc.down n))) =
        (s.add (underQuotes m s.quotes)).below front n := by
    rw [← underQuotes_down, add_below]
  rcases t with ⟨kind, loc⟩
  cases kind with
  | eof => rfl
  | quote => rfl
  | opener b => rfl
  | closer b => exact close_below front n s loc b
  | number text x => exact congrArg Except.ok (hleaf (.number ⟨loc, false⟩ x))
  | boolean b => exact congrArg Except.ok (hleaf (.bool ⟨loc, false⟩ b))
  | string text => exact congrArg Except.ok (hleaf (.string ⟨loc, false⟩ text))
  | atom name => exact congrArg Except.ok (hleaf (.atom ⟨loc, false⟩ name))

theorem run_below (s : Scan) (ts : List Token) : (s.below front n).run (ts.map (Token.down n)) =
    ((s.run ts).map (below front n)).mapError (StructureError.down n) := by
  induction ts generalizing s with
  | nil => rfl
  | cons t ts ih =>
    rw [List.map_cons, run, step_below, run]
    cases s.step t with
    | ok s' => exact ih s'
    | error e => rfl

theorem finish_below (s : Scan) (loc : Loc) : (s.below front n).finish (loc.down n) =
    ((s.finish loc).map fun ns => front.reverse ++ ns.map (Node.down n)).mapError
      (StructureError.down n) := by
  rcases s with ⟨done, _ | ⟨top, stack⟩, _ | ⟨q, quotes⟩⟩
  · show Except.ok (done.map (Node.down n) ++ front).reverse =
      Except.ok (front.reverse ++ done.reverse.map (Node.down n))
    rw [List.reverse_append, List.map_reverse]
  all_goals rfl

end Below

/-! ## 3. Runs in parts -/

theorem run_append (s : Scan) (ts us : List Token) : s.run (ts ++ us) = match s.run ts with
    | .ok s' => s'.run us
    | .error e => .error e := by
  induction ts generalizing s with
  | nil => rfl
  | cons t ts ih =>
    rw [List.cons_append, run, run]
    cases s.step t with
    | ok s' => exact ih s'
    | error e => rfl

theorem run_of_append {s s'' : Scan} {ts us : List Token} (h : s.run (ts ++ us) = .ok s'') :
    ∃ s', s.run ts = .ok s' ∧ s'.run us = .ok s'' := by
  rw [run_append] at h
  cases hts : s.run ts with
  | ok s' =>
    rw [hts] at h
    exact ⟨s', rfl, h⟩
  | error e =>
    rw [hts] at h
    cases h

theorem quotes_close {s s' : Scan} {loc : Loc} {b : Bracket} (h : s.close loc b = .ok s') :
    s'.quotes = [] := by
  unfold close at h
  split at h
  · cases h
  · split at h
    · cases h
    · split at h
      · cases h
        exact quotes_add _ _
      · cases h

/-- Only a quote leaves quotes that wait. -/
theorem quotes_step {s s' : Scan} {t : Token} (h : s.step t = .ok s') (heof : t.kind ≠ .eof)
    (hquote : t.kind ≠ .quote) : s'.quotes = [] := by
  rcases t with ⟨kind, loc⟩
  cases kind with
  | eof => exact absurd rfl heof
  | quote => exact absurd rfl hquote
  | opener b =>
    cases h
    rfl
  | closer b => exact quotes_close h
  | _ =>
    cases h
    exact quotes_add _ _

/-- If quotes wait after some tokens, the last of the tokens is a quote. -/
theorem quote_of_run {s : Scan} {ts : List Token} (heof : ∀ t ∈ ts, t.kind ≠ .eof)
    (h : empty.run ts = .ok s) (hquotes : s.quotes ≠ []) :
    ∃ us t, ts = us ++ [t] ∧ t.kind = .quote := by
  rcases List.eq_nil_or_concat' ts with rfl | ⟨us, t, rfl⟩
  · cases h
    exact absurd rfl hquotes
  · obtain ⟨s', -, hstep⟩ := run_of_append h
    refine ⟨us, t, rfl, ?_⟩
    by_contra hquote
    unfold run at hstep
    split at hstep
    · rename_i s'' hs''
      cases hstep
      exact hquotes (quotes_step hs'' (heof t (by simp)) hquote)
    · cases hstep

end Scan

/-! ## 4. Texts in lines -/

theorem lexemes_nil : (Cursor.ofChars []).lexemes = ([], .eof Loc.start) := by
  rw [Cursor.lexemes_eq]
  rfl

theorem parseChars_nil : parseChars [] = .ok [] :=
  parseChars_eq_ok.mpr ⟨[], Loc.start, Scan.empty, lexemes_nil, rfl, rfl⟩

theorem scan_of_finish {s : Scan} {l : Loc} {ns : List Node} (h : s.finish l = .ok ns) :
    s = ⟨ns.reverse, [], []⟩ := by
  rcases s with ⟨done, _ | ⟨top, stack⟩, _ | ⟨q, quotes⟩⟩
  · cases h
    rw [List.reverse_reverse]
  all_goals cases h

/-- **A text that can be read and another line are read one after the other.** The line is read as
    from the start of a text, and what comes out of it stands below the text. -/
theorem parseChars_withLine {cs : List Char} {ns : List Node} (h : parseChars cs = .ok ns)
    (line : List Char) : parseChars (cs ++ '\n' :: line) =
      ((parseChars line).map fun ms =>
        ns ++ ms.map (Node.down (Loc.start.advanceBy cs).line)).mapError
          (ReadError.down (Loc.start.advanceBy cs).line) := by
  obtain ⟨ls, l, s, hlex, hrun, hfinish⟩ := parseChars_eq_ok.mp h
  obtain rfl := scan_of_finish hfinish
  have hl : l = Loc.start.advanceBy cs := by
    obtain ⟨passed, hrest, hloc⟩ := Cursor.passes_of_eof hlex
    rw [List.append_nil] at hrest
    rw [← hrest] at hloc
    exact hloc
  rw [← hl]
  have hlex' : (Cursor.ofChars (cs ++ '\n' :: line)).lexemes = _ :=
    Cursor.lexemes_withLine_of_eof line hlex
  rw [parseChars_eq_readFrom, parseChars_eq_readFrom]
  unfold Scan.readFrom Scan.readTokens
  rw [hlex']
  rcases (Cursor.ofChars line).lexemes with ⟨more, ending⟩
  have htokens : (more.map (Lexeme.down l.line)).map Lexeme.token =
      (more.map Lexeme.token).map (Token.down l.line) := by
    rw [List.map_map, List.map_map]
    rfl
  have hmore := Scan.run_below ns.reverse l.line Scan.empty (more.map Lexeme.token)
  dsimp only
  rw [List.map_append, Scan.run_append, hrun, htokens]
  dsimp only
  rw [show (⟨ns.reverse, [], []⟩ : Scan) = Scan.empty.below ns.reverse l.line from rfl, hmore]
  cases Scan.empty.run (more.map Lexeme.token) with
  | error e => rfl
  | ok s =>
    cases ending with
    | failed e cur => rfl
    | eof l' =>
      have hend := Scan.finish_below ns.reverse l.line s l'
      rw [List.reverse_reverse] at hend
      dsimp only [Except.map, Except.mapError, Ending.down]
      rw [hend]
      cases s.finish l' <;> rfl

/-- A line feed at the end of a text that can be read adds nothing. -/
theorem parseChars_of_newline {cs : List Char} {ns : List Node}
    (h : parseChars (cs ++ ['\n']) = .ok ns) : parseChars cs = .ok ns := by
  obtain ⟨ls', l', s, hlex', hrun, hfinish⟩ := parseChars_eq_ok.mp h
  obtain rfl := scan_of_finish hfinish
  generalize hlex : (Cursor.ofChars cs).lexemes = lexed
  rcases lexed with ⟨ls, l | ⟨e, cur⟩⟩
  · have hsame := (Cursor.lexemes_withLine_of_eof [] hlex).symm.trans hlex'
    rw [lexemes_nil, List.map_nil, List.append_nil] at hsame
    obtain ⟨rfl, -⟩ := Prod.mk.inj hsame
    refine parseChars_eq_ok.mpr ⟨ls, l, _, hlex, hrun, ?_⟩
    show Except.ok ns.reverse.reverse = _
    rw [List.reverse_reverse]
  · obtain ⟨cur', hfailed⟩ := Cursor.lexemes_withLine_of_no_quote [] hlex List.not_mem_nil
    cases hfailed.symm.trans hlex'

/-- In the text every quote stands on the line of what it quotes, or of the next quote. -/
def QuotesAttached (cs : List Char) : Prop :=
  (tokenize cs).1.IsChain fun t u => t.kind = .quote → u.loc.line = t.loc.line

theorem quotesAttached_nil : QuotesAttached [] := by
  unfold QuotesAttached tokenize
  rw [lexemes_nil]
  exact .nil

theorem quotesAttached_of_newline {cs : List Char} (h : QuotesAttached (cs ++ ['\n'])) :
    QuotesAttached cs := by
  obtain ⟨more, hmore⟩ := Cursor.lexemes_prefix_withLine [] (Cursor.ofChars cs)
  have htokens : (tokenize (cs ++ ['\n'])).1 = (tokenize cs).1 ++ more.map Lexeme.token := by
    show (Cursor.lexemes _).1.map Lexeme.token = (Cursor.lexemes _).1.map Lexeme.token ++ _
    rw [← List.map_append, hmore]
    rfl
  unfold QuotesAttached at h ⊢
  rw [htokens] at h
  exact h.left_of_append

theorem quotesAttached_of_withLine {cs line : List Char} {ns : List Node}
    (h : parseChars cs = .ok ns) (hquotes : QuotesAttached (cs ++ '\n' :: line)) :
    QuotesAttached line := by
  obtain ⟨ls, l, s, hlex, -, -⟩ := parseChars_eq_ok.mp h
  have hlex' : (Cursor.ofChars (cs ++ '\n' :: line)).lexemes = _ :=
    Cursor.lexemes_withLine_of_eof line hlex
  unfold QuotesAttached tokenize at hquotes ⊢
  rw [hlex'] at hquotes
  dsimp only at hquotes ⊢
  rw [List.map_append, List.map_map] at hquotes
  have hmore := (List.isChain_map _).mp hquotes.right_of_append
  refine (List.isChain_map _).mpr (hmore.imp fun lex lex' hattached hquote => ?_)
  exact Nat.add_right_cancel (hattached hquote)

/-- A scan in which no quote waits comes to an end, or a list is open. -/
theorem finish_of_quotes {s : Scan} (h : s.quotes = []) (l : Loc) :
    (∃ ns, s.finish l = .ok ns) ∨ ∃ l' b, s.finish l = .error ⟨l', .neverClosed b⟩ := by
  rcases s with ⟨done, _ | ⟨top, stack⟩, quotes⟩
  · cases h
    exact .inl ⟨_, rfl⟩
  · cases h
    exact .inr ⟨_, _, rfl⟩

/-- No quote waits at the end of a line, if lines can be read together and quotes stand on the line
    of what they quote. -/
theorem quotes_of_withLine {cs line : List Char} {ns : List Node} {ls : List Lexeme} {l : Loc}
    {s : Scan} (h : parseChars (cs ++ '\n' :: line) = .ok ns)
    (hattached : QuotesAttached (cs ++ '\n' :: line))
    (hlex : (Cursor.ofChars cs).lexemes = (ls, .eof l))
    (hrun : Scan.empty.run (ls.map Lexeme.token) = .ok s) : s.quotes = [] := by
  by_contra hquotes
  have heof : ∀ t ∈ (tokenize cs).1, t.kind ≠ .eof :=
    forall_mem_tokenize (fun _ _ _ _ ht => ht) cs
  rw [show (tokenize cs).1 = ls.map Lexeme.token by unfold tokenize; rw [hlex]] at heof
  obtain ⟨us, q, hus, hq⟩ := Scan.quote_of_run heof hrun hquotes
  obtain ⟨ls', l', s', hlex', hrun', hfinish'⟩ := parseChars_eq_ok.mp h
  have hsplit := (Cursor.lexemes_withLine_of_eof line hlex).symm.trans hlex'
  obtain ⟨rfl, -⟩ := Prod.mk.inj hsplit
  rw [List.map_append] at hrun'
  obtain ⟨s'', hs'', hmore⟩ := Scan.run_of_append hrun'
  cases hrun.symm.trans hs''
  unfold QuotesAttached tokenize at hattached
  rw [hlex'] at hattached
  dsimp only at hattached
  rw [List.map_append, hus] at hattached
  -- the quote waits for a token, and that stands on a later line
  cases hlexemes : (Cursor.ofChars line).lexemes.1 with
  | nil =>
    rw [hlexemes] at hmore
    cases hmore
    rw [scan_of_finish hfinish'] at hquotes
    exact hquotes rfl
  | cons v vs =>
    rw [hlexemes, List.map_cons, List.map_cons, List.append_assoc] at hattached
    have hline : (v.token.down l.line).loc.line = q.loc.line :=
      (List.isChain_append_cons_cons.mp hattached).2.1 hq
    have hbelow : 1 ≤ v.token.loc.line :=
      (Cursor.ofChars line).line_le_of_mem (by rw [hlexemes]; exact List.mem_cons_self)
    obtain ⟨lex, hmem, rfl⟩ : ∃ lex ∈ ls, lex.token = q := by
      have hlast : q ∈ ls.map Lexeme.token := by rw [hus]; simp
      exact List.mem_map.mp hlast
    have habove := Cursor.le_line_of_mem hlex hmem
    have hdown : (v.token.down l.line).loc.line = v.token.loc.line + l.line := rfl
    omega

/-- **What can be read together with another line can be read alone or is unfinished**: a string or
    a list is open. -/
theorem parseChars_of_withLine {cs line : List Char} {ns : List Node}
    (h : parseChars (cs ++ '\n' :: line) = .ok ns)
    (hattached : QuotesAttached (cs ++ '\n' :: line)) :
    (∃ ms, parseChars cs = .ok ms) ∨
      (∃ l, parseChars cs = .error (.lexical ⟨l, .unterminatedString⟩)) ∨
      ∃ l b, parseChars cs = .error (.structural ⟨l, .neverClosed b⟩) := by
  obtain ⟨ls', l', s', hlex', hrun', hfinish'⟩ := parseChars_eq_ok.mp h
  obtain ⟨more, hmore⟩ := Cursor.lexemes_prefix_withLine line (Cursor.ofChars cs)
  have hls' : ls' = (Cursor.ofChars cs).lexemes.1 ++ more := by
    rw [hmore]
    exact (congrArg Prod.fst hlex').symm
  rw [hls', List.map_append] at hrun'
  obtain ⟨s, hrun, -⟩ := Scan.run_of_append hrun'
  generalize hlex : (Cursor.ofChars cs).lexemes = lexed at hrun
  rcases lexed with ⟨ls, ending⟩
  dsimp only at hrun
  cases ending with
  | failed e cur =>
    by_cases hopen : e.cause = .unterminatedString
    · refine .inr (.inl ⟨e.loc, ?_⟩)
      rw [parseChars_eq_readFrom, Scan.readFrom_of_run hlex hrun, ← hopen]
      rfl
    · cases (Cursor.lexemes_withLine_of_failed line hlex hopen).symm.trans hlex'
  | eof l =>
    rcases finish_of_quotes (quotes_of_withLine h hattached hlex hrun) l with
      ⟨ms, hms⟩ | ⟨l'', b, hopen⟩
    · exact .inl ⟨ms, parseChars_eq_ok.mpr ⟨ls, l, s, hlex, hrun, hms⟩⟩
    · refine .inr (.inr ⟨l'', b, ?_⟩)
      rw [parseChars_eq_readFrom, Scan.readFrom_of_run hlex hrun]
      show (s.finish l).mapError ReadError.structural = _
      rw [hopen]
      rfl

end SmallLisp
