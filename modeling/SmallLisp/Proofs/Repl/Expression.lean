import SmallLisp.Proofs.Node.Attachment
import SmallLisp.Proofs.Repl.Loading

/-!
# An expression on several lines

An interactive session reads on while an expression is unfinished. If the lines of a text make up
one list, then reading a request takes all of them and gives the text and what is read from it, and
no line before the last one is complained about. There is one exception, a line that ends behind a
quote: that is reported as an error, although the next line has what is quoted
(`expression_gathered`).

* `Request.gather` reads one request, and `Repl.run_of_gather` says that a session does so;
* `IsExpression.not_whole`: a list that ends on the last line is not whole before it;
* `IsExpression.gather_lines`: what reading the lines gives, by induction on the lines.
-/

namespace SmallLisp

/-! ## 1. One request -/

namespace Request

/-- Reads one request from lines, after the text of an unfinished program if there is one: the text
    of the request, what it asks for, and the lines that are left. -/
def gather (pending : Option Text) : List Text → Option (Text × Request × List Text)
  | [] => none
  | line :: lines =>
    match ofLine pending line with
    | .unfinished text => gather (some text) lines
    | request => some (textWith pending line, request, lines)

/-- The error of a text that cannot be read. -/
def fault? : Request → Option ReadError
  | faulty e => some e
  | _ => none

/-- Only the first line of a request can be a command. -/
theorem ofLine_eq_ofText {pending : Option Text} {line : Text}
    (h : pending = none → Command.isCommand line = false) :
    ofLine pending line = .ofText (textWith pending line) := by
  cases pending with
  | none => exact ofLine_eq (h rfl) none
  | some text => exact congrArg ofText (List.append_assoc text [0x0A] line)

theorem textWith_of_unfinished {pending : Option Text} {line text : Text}
    (h : ofLine pending line = .unfinished text) : text = textWith pending line := by
  have hofText {t : Text} (ht : ofText t = .unfinished text) : text = t := by
    unfold ofText at ht
    split at ht
    · cases ht
    · split at ht <;> cases ht
      rfl
  cases pending with
  | none =>
    unfold ofLine at h
    dsimp only at h
    split at h
    · cases h
    · exact hofText h
  | some front => exact (hofText h).trans (List.append_assoc front [0x0A] line)

/-- A request that needs a last line is not read without it. -/
theorem gather_of_append {pending : Option Text} {lines : List Text} {last text : Text}
    {request : Request} (h : gather pending (lines ++ [last]) = some (text, request, [])) :
    gather pending lines = none := by
  induction lines generalizing pending with
  | nil => rfl
  | cons line lines ih =>
    rw [List.cons_append] at h
    unfold gather at h ⊢
    cases hline : ofLine pending line with
    | unfinished front =>
      rw [hline] at h
      exact ih h
    | _ =>
      rw [hline] at h
      simp at h

end Request

namespace Repl

/-- What a session does about a request that is no command. -/
def settle (s : Session) : Request → Session
  | .program n => evaluate s n
  | .faulty e => s.printLine e.message
  | .unfinished _ | .command _ => s

/-- The session after a request that takes these lines. -/
def afterRequest (r : Repl) (taken : List Text) (request : Request) : Repl :=
  { r with
    pending := none
    history := taken.foldl History.record r.history
    session := settle
      ((List.replicate (taken.length - 1) continuationPrompt).foldl Session.print r.ask.session)
      request }

theorem feed_faulty {r : Repl} {line : Text} {e : ReadError}
    (h : Request.ofLine r.pending line = .faulty e) :
    r.ask.feed line = .ok (r.afterRequest [line] (.faulty e)) := by
  unfold feed
  dsimp only
  rw [show r.ask.pending = r.pending from rfl, h]
  rfl

/-- **A session reads one request and then the others.** The text of the request is that of the
    lines that it takes. -/
theorem run_of_gather {lines : List Text} {pending : Option Text} {text : Text} {request : Request}
    {rest : List Text} (h : Request.gather pending lines = some (text, request, rest))
    (hrequest : ∀ c, request ≠ .command c) :
    ∃ taken, lines = taken ++ rest ∧ taken ≠ [] ∧
      text = Text.join [0x0A] (pending.toList ++ taken) ∧
      ∀ r : Repl, r.pending = pending → r.run lines = (r.afterRequest taken request).run rest := by
  induction lines generalizing pending with
  | nil => cases h
  | cons line lines ih =>
    have hsingle : textWith pending line = Text.join [0x0A] (pending.toList ++ [line]) := by
      rw [join_textWith, Lines.join_singleton]
    unfold Request.gather at h
    cases hline : Request.ofLine pending line with
    | unfinished front =>
      rw [hline] at h
      obtain ⟨taken, rfl, hne, htext, hrun⟩ := ih h
      refine ⟨line :: taken, rfl, List.cons_ne_nil _ _, ?_, fun r hr => ?_⟩
      · rw [htext, Request.textWith_of_unfinished hline, join_textWith]
        rfl
      · subst hr
        rw [run, feed_unfinished hline]
        refine (hrun (r.afterUnfinished line front) rfl).trans (congrArg (run · rest) ?_)
        obtain ⟨next, more, rfl⟩ := List.exists_cons_of_ne_nil hne
        rfl
    | command c =>
      rw [hline] at h
      cases h
      exact absurd rfl (hrequest c)
    | program n =>
      rw [hline] at h
      cases h
      refine ⟨[line], rfl, List.cons_ne_nil _ _, hsingle, fun r hr => ?_⟩
      subst hr
      rw [run, feed_program hline]
      rfl
    | faulty e =>
      rw [hline] at h
      cases h
      refine ⟨[line], rfl, List.cons_ne_nil _ _, hsingle, fun r hr => ?_⟩
      subst hr
      rw [run, feed_faulty hline]

end Repl

/-! ## 2. Lines that start with a bracket -/

/-- White space is taken off behind what is none. -/
theorem Text.trim_encodeChar {c : Char} (hc : isBlank c = false) (t : Text) :
    ∃ u, Text.trim (Utf8.encodeChar c ++ t) = Utf8.encodeChar c ++ u := by
  have hpiece : isBlankPiece (.char c) = false := hc
  refine ⟨ofPieces ((Utf8.pieces t).reverse.dropWhile isBlankPiece).reverse, ?_⟩
  unfold trim
  rw [Utf8.pieces_encodeChar, List.dropWhile_cons_of_neg (by simp [hpiece]), List.reverse_cons,
    List.dropWhile_append]
  split
  · rename_i hempty
    rw [List.isEmpty_iff.mp hempty, List.dropWhile_cons_of_neg (by simp [hpiece])]
    rfl
  · rw [List.reverse_append]
    rfl

theorem not_isCommand_openChar (b : Bracket) (t : Text) :
    Command.isCommand (Utf8.encodeChar b.openChar ++ t) = false := by
  have hblank : isBlank b.openChar = false := by cases b <;> decide
  obtain ⟨u, hu⟩ := Text.trim_encodeChar hblank t
  unfold Command.isCommand
  rw [hu]
  cases b <;> rfl

/-! ## 3. Expressions -/

/-- The text is one expression: it starts with an opening bracket, and its last token, which closes
    that bracket, stands on its last line. -/
structure IsExpression (src : Text) (n : Node) : Prop where
  opens : ∃ b : Bracket, Utf8.encodeChar b.openChar <+: src
  reads : parse src = .ok (programOf [n])
  closes : ∀ t ∈ (tokenize (Utf8.decode src)).1.getLast?,
    t.loc.line = 1 + (Utf8.decode src).count '\n'

theorem parseChars_of_parse {src : Text} {ns : List Node} (h : parse src = .ok (programOf ns)) :
    parseChars (Utf8.decode src) = .ok ns := by
  unfold parse at h
  split at h
  · rename_i ns' hns'
    cases h
    exact hns'
  · cases h

theorem tokenize_of_parseChars_nil {cs : List Char} (h : parseChars cs = .ok []) :
    (tokenize cs).1 = [] := by
  obtain ⟨ps, htok, hps⟩ := parseChars_eq_ok_iff.mp h
  obtain rfl := List.map_eq_nil_iff.mp hps.symm
  rw [htok]
  rfl

/-- The tokens of a text that can be read, below which there are no others. -/
theorem tokenize_withLine_of_nil {cs line : List Char} {ns : List Node}
    (h : parseChars cs = .ok ns) (hline : (tokenize line).1 = []) :
    (tokenize (cs ++ '\n' :: line)).1 = (tokenize cs).1 := by
  obtain ⟨ls, l, -, hlex, -, -⟩ := parseChars_eq_ok.mp h
  have hlex' : (Cursor.ofChars (cs ++ '\n' :: line)).lexemes = _ :=
    Cursor.lexemes_withLine_of_eof line hlex
  have hnone : (Cursor.ofChars line).lexemes.1 = [] := List.map_eq_nil_iff.mp hline
  unfold tokenize
  rw [hlex', hlex, hnone, List.map_nil, List.append_nil]

/-- Tokens of a text that can be read stand on its lines. -/
theorem line_le_of_mem_tokenize {cs : List Char} {ns : List Node} (h : parseChars cs = .ok ns)
    {t : Token} (ht : t ∈ (tokenize cs).1) : t.loc.line ≤ 1 + cs.count '\n' := by
  obtain ⟨ls, l, -, hlex, -, -⟩ := parseChars_eq_ok.mp h
  have htokens : (tokenize cs).1 = ls.map Lexeme.token := by
    unfold tokenize
    rw [hlex]
  rw [htokens] at ht
  obtain ⟨lex, hmem, rfl⟩ := List.mem_map.mp ht
  obtain ⟨passed, hrest, hloc⟩ := Cursor.passes_of_eof hlex
  have hall : cs = passed := hrest.trans (List.append_nil passed)
  have hl : l.line = 1 + cs.count '\n' := by
    rw [show l = _ from hloc, Loc.line_advanceBy, hall]
    rfl
  exact hl ▸ Cursor.le_line_of_mem hlex hmem

namespace IsExpression

variable {src : Text} {n : Node}

theorem front_opens (h : IsExpression src n) {front rest : Text}
    (hsrc : src = front ++ 0x0A :: rest) :
    ∃ (b : Bracket) (more : Text), front = Utf8.encodeChar b.openChar ++ more := by
  obtain ⟨b, tail, htail⟩ := h.opens
  refine ⟨b, ?_⟩
  rw [hsrc] at htail
  cases front with
  | nil => cases b <;> cases htail
  | cons a front => cases b <;> exact ⟨front, congrArg (· :: front) (List.cons.inj htail).1.symm⟩

/-- **An expression is not whole before its last line.** The text before a line feed would be an
    expression of its own, and so would be the text after it. -/
theorem not_whole (h : IsExpression src n) {front rest : Text}
    (hsrc : src = front ++ 0x0A :: rest) (ns : List Node) :
    parseChars (Utf8.decode front) ≠ .ok ns := by
  intro hfront
  have hread := parseChars_of_parse h.reads
  have hcloses := h.closes
  rw [hsrc, Utf8.decode_newline] at hread hcloses
  have hparts := (parseChars_withLine hfront _).symm.trans hread
  cases hrest : parseChars (Utf8.decode rest) with
  | error e =>
    rw [hrest] at hparts
    cases hparts
  | ok ms =>
    rw [hrest] at hparts
    have hone : ns ++ ms.map _ = [n] := Except.ok.inj hparts
    have htoken : (tokenize (Utf8.decode front)).1 ≠ [] := by
      obtain ⟨b, more, rfl⟩ := h.front_opens hsrc
      unfold tokenize Utf8.decode
      rw [Utf8.pieces_encodeChar, Cursor.lexemes_eq]
      cases b <;> exact List.cons_ne_nil _ _
    have hns : ns ≠ [] := by
      rintro rfl
      exact htoken (tokenize_of_parseChars_nil hfront)
    have hms : ms ≠ [] := by
      rintro rfl
      -- then the last token is one of those above the line feed
      rw [tokenize_withLine_of_nil hfront (tokenize_of_parseChars_nil hrest)] at hcloses
      have hlast := hcloses _ (List.getLast?_eq_some_getLast htoken)
      have habove := line_le_of_mem_tokenize hfront (List.getLast_mem htoken)
      rw [List.count_append, List.count_cons_self] at hlast
      omega
    have hlength := congrArg List.length hone
    rw [List.length_append, List.length_map] at hlength
    have hns' := List.length_pos_iff.mpr hns
    have hms' := List.length_pos_iff.mpr hms
    rw [List.length_singleton] at hlength
    omega

/-- The text does not end with a line feed. -/
theorem openLine_ne_nil (h : IsExpression src n) : Lines.openLine src ≠ [] := by
  intro hopen
  have hne : src ≠ [] := by
    rintro rfl
    obtain ⟨b, hb⟩ := h.opens
    cases b <;> exact absurd (List.prefix_nil.mp hb) (List.cons_ne_nil _ _)
  obtain ⟨front, hfront⟩ := Lines.eq_append_newline_of_openLine hopen hne
  have hread := parseChars_of_parse h.reads
  rw [hfront, Utf8.decode_newline] at hread
  exact h.not_whole hfront _ (parseChars_of_newline hread)

theorem join_cut (h : IsExpression src n) : Text.join [0x0A] (Lines.cut src) = src := by
  rcases Lines.eq_join_cut src with hsrc | hsrc
  · exact hsrc.symm
  · refine absurd ?_ h.openLine_ne_nil
    rw [hsrc, Lines.openLine_append_newline]
    rfl

/-- What is wrong with a text before the last line: it is unfinished, or it ends behind a quote. -/
theorem fault_of_front (h : IsExpression src n) {front rest : Text}
    (hsrc : src = front ++ 0x0A :: rest) :
    ∃ e, parseChars (Utf8.decode front) = .error e ∧
      (e.isUnfinished = true ∨ ∃ loc, e = .structural ⟨loc, .quoteAtEnd⟩) := by
  cases hfront : parseChars (Utf8.decode front) with
  | ok ns => exact absurd hfront (h.not_whole hsrc ns)
  | error e =>
    refine ⟨e, rfl, e.isCutOff_iff.mp ?_⟩
    by_contra hstays
    have hread := parseChars_of_parse h.reads
    rw [hsrc, Utf8.decode_newline] at hread
    have hsame := parseChars_withLine_of_fault hfront (Bool.not_eq_true _ ▸ hstays)
      (Utf8.decode rest)
    cases hsame.symm.trans hread

/-! ## 4. Line after line -/

/-- What reading the lines gives: the whole text, and all quotes stand on the lines of what they
    quote; or the error that a line ends behind a quote, and some do not. -/
def Gathers (src : Text) (n : Node) (read : Option (Text × Request × List Text)) : Prop :=
  (read = some (src, .program (programOf [n]), []) ∧ QuotesAttached (Utf8.decode src)) ∨
    (∃ front loc rest, read = some (front, .faulty (.structural ⟨loc, .quoteAtEnd⟩), rest) ∧
      rest ≠ []) ∧ ¬ QuotesAttached (Utf8.decode src)

/-- **Reading the lines of an expression.** The induction is on the lines that are left. The lines
    before them are unfinished, and up to there every quote stands on the line of what it quotes. -/
theorem gather_lines (h : IsExpression src n) {lines : List Text} (hne : lines ≠ [])
    {pending : Option Text} (hsrc : Text.join [0x0A] (pending.toList ++ lines) = src)
    (hlines : ∀ line ∈ lines, 0x0A ∉ line)
    (hfirst : pending = none → ∀ line ∈ lines.head?, Command.isCommand line = false)
    (hpending : ∀ text ∈ pending, (Cursor.ofChars (Utf8.decode text)).starts.IsChain Attached ∧
      (Cursor.ofChars (Utf8.decode text)).EndsFree) :
    Gathers src n (Request.gather pending lines) := by
  induction lines generalizing pending with
  | nil => exact absurd rfl hne
  | cons line lines ih =>
    have hline := Utf8.newline_not_mem_decode (hlines line List.mem_cons_self)
    have hrequest := Request.ofLine_eq_ofText fun hp => hfirst hp line rfl
    have hattached : (Cursor.ofChars (Utf8.decode (textWith pending line))).starts.IsChain
        Attached := by
      cases pending with
      | none => exact attached_oneLine hline
      | some text =>
        obtain ⟨hchain, hend⟩ := hpending text rfl
        rw [show textWith (some text) line = text ++ 0x0A :: line from rfl, Utf8.decode_newline]
        exact attached_withLine hchain hend hline
    rw [join_textWith] at hsrc
    unfold Request.gather
    rw [hrequest]
    generalize textWith pending line = text at hsrc hattached ⊢
    cases lines with
    | nil =>
      rw [Lines.join_singleton] at hsrc
      subst hsrc
      have hread := parseChars_of_parse h.reads
      rw [starts_of_parseChars hread] at hattached
      rw [Request.ofText_of_ok hread]
      exact .inl ⟨rfl, (quotesAttached_iff _).mpr hattached⟩
    | cons next lines =>
      have hjoin := hsrc
      rw [Lines.join_cons_cons] at hsrc
      obtain ⟨e, hfault, hopen | ⟨loc, rfl⟩⟩ := h.fault_of_front hsrc.symm
      · have hunfinished : Request.ofText text = .unfinished text := by
          unfold Request.ofText parse
          rw [hfault]
          exact if_pos hopen
        rw [hunfinished]
        refine ih (List.cons_ne_nil _ _) hjoin
          (fun l hl => hlines l (List.mem_cons_of_mem line hl)) (fun hp => by cases hp) ?_
        intro text' htext'
        cases htext'
        exact ⟨hattached, endsFree_of_isUnfinished hfault hopen⟩
      · have hfaulty : Request.ofText text = .faulty (.structural ⟨loc, .quoteAtEnd⟩) := by
          unfold Request.ofText parse
          rw [hfault]
          rfl
        rw [hfaulty]
        refine .inr ⟨⟨text, loc, next :: lines, rfl, List.cons_ne_nil _ _⟩, fun hall => ?_⟩
        have hread := parseChars_of_parse h.reads
        rw [← hsrc, Utf8.decode_newline] at hread hall
        rcases parseChars_of_withLine hread hall with ⟨ms, hms⟩ | ⟨l, hl⟩ | ⟨l, b, hl⟩
        · cases hfault.symm.trans hms
        · cases hfault.symm.trans hl
        · cases hfault.symm.trans hl

/-- Reading the lines of an expression from the start. -/
theorem gather_cut (h : IsExpression src n) :
    Gathers src n (Request.gather none (Lines.cut src)) := by
  obtain ⟨b, tail, rfl⟩ := h.opens
  have hne : Lines.cut (Utf8.encodeChar b.openChar ++ tail) ≠ [] :=
    Lines.cut_ne_nil (by cases b <;> exact List.cons_ne_nil _ _)
  refine h.gather_lines hne h.join_cut (fun _ => Lines.newline_not_mem_of_mem_cut) ?_
    (fun _ ht => by cases ht)
  intro _ line hline
  have hbracket : 0x0A ∉ Utf8.encodeChar b.openChar := by cases b <;> decide
  by_cases htail : tail = []
  · subst htail
    rw [Lines.cut_of_not_mem (by rwa [List.append_nil]) (by cases b <;> exact List.cons_ne_nil _ _)]
      at hline
    cases hline
    exact not_isCommand_openChar b []
  · obtain ⟨first, lines, hcut⟩ := List.exists_cons_of_ne_nil (Lines.cut_ne_nil htail)
    rw [Lines.cut_append hbracket hcut] at hline
    cases hline
    exact not_isCommand_openChar b first

/-- What a plain reader gives is the lines of the expression. -/
theorem plain_eq_cut (h : IsExpression src n) (hreturn : 0x0D ∉ src) {input : Text}
    (hinput : input = src ++ [0x0A] ∨ input = src ∧ ¬ Lines.LosesLast src) :
    Lines.plain input = Lines.cut src := by
  rcases hinput with rfl | ⟨rfl, hkept⟩
  · exact Lines.plain_append_newline hreturn h.openLine_ne_nil
  · rw [Lines.plain_eq hreturn, if_neg hkept]

theorem exists_of_parse (hopens : ∃ b : Bracket, Utf8.encodeChar b.openChar <+: src)
    (hreads : (parse src).toOption.map (·.items.length) = some 1)
    (hcloses : ∀ t ∈ (tokenize (Utf8.decode src)).1.getLast?,
      t.loc.line = 1 + (Utf8.decode src).count '\n') : ∃ n, IsExpression src n := by
  unfold parse at hreads
  cases hns : parseChars (Utf8.decode src) with
  | error e =>
    rw [hns] at hreads
    cases hreads
  | ok ns =>
    rw [hns] at hreads
    obtain ⟨n, rfl⟩ := List.length_eq_one_iff.mp (Option.some.inj hreads)
    exact ⟨n, hopens, by rw [parse, hns], hcloses⟩

end IsExpression

/-! ## 5. The result -/

/-- **A session reads on while an expression is unfinished.** The input consists of the lines of one
    expression. If each quote in it stands on the line of what it quotes, then the first request is
    the whole text, and all that the session does is to ask for its lines and to evaluate it. If
    not, then the first request is an error: some line ends behind a quote. A last line that is
    never read leaves the expression unfinished. -/
theorem expression_gathered {src input : Text} {n : Node} (hsrc : IsExpression src n)
    (hreturn : 0x0D ∉ src)
    (hinput : input = src ++ [0x0A] ∨ input = src ∧ ¬ Lines.LosesLast src) :
    (QuotesAttached (Utf8.decode src) →
      Request.gather none (Lines.plain input) = some (src, .program (programOf [n]), []) ∧
      ∀ r : Repl, r.pending = none → r.run (Lines.plain input) =
        (r.afterRequest (Lines.plain input) (.program (programOf [n]))).ask) ∧
    (¬ QuotesAttached (Utf8.decode src) → ∃ taken rest loc, Lines.plain input = taken ++ rest ∧
      rest ≠ [] ∧ Request.gather none (Lines.plain input) =
        some (Text.join [0x0A] taken, .faulty (.structural ⟨loc, .quoteAtEnd⟩), rest) ∧
      ∀ r : Repl, r.pending = none → r.run (Lines.plain input) =
        (r.afterRequest taken (.faulty (.structural ⟨loc, .quoteAtEnd⟩))).run rest) ∧
    (QuotesAttached (Utf8.decode src) → Lines.LosesLast src →
      Request.gather none (Lines.plain src) = none) := by
  rw [hsrc.plain_eq_cut hreturn hinput]
  rcases hsrc.gather_cut with ⟨hwhole, hattached⟩ | ⟨⟨front, loc, rest, hfaulty, hrest⟩, hbroken⟩
  · refine ⟨fun _ => ⟨hwhole, fun r hr => ?_⟩, fun h => absurd hattached h, fun _ hlost => ?_⟩
    · obtain ⟨taken, htaken, -, -, hrun⟩ := Repl.run_of_gather hwhole (fun _ h => by cases h)
      rw [List.append_nil] at htaken
      rw [hrun r hr, htaken]
      rfl
    · rw [Lines.plain_eq hreturn, if_pos hlost]
      have hne : Lines.cut src ≠ [] := Lines.cut_ne_nil fun h => hlost.1 (by rw [h]; rfl)
      rw [← List.dropLast_append_getLast hne] at hwhole
      exact Request.gather_of_append hwhole
  · refine ⟨fun h => absurd h hbroken, fun _ => ?_, fun h => absurd h hbroken⟩
    obtain ⟨taken, htaken, -, rfl, hrun⟩ := Repl.run_of_gather hfaulty (fun _ h => by cases h)
    exact ⟨taken, rest, loc, htaken, hrest, hfaulty, hrun⟩

/-- An expression with a quote that is followed by its list, a comment and a string with a quote in
    them, and a string on two lines. -/
def spreadSource : Text := Text.ofString "(list '(a ; '\n  b) \"c\n'\"\n [d]) ; end"

/-- An expression of which a line ends behind a quote. -/
def brokenQuoteSource : Text := Text.ofString "(list '\na)"

theorem spreadSource_isExpression : ∃ n, IsExpression spreadSource n :=
  IsExpression.exists_of_parse ⟨.paren, by decide +kernel⟩ (by decide +kernel) (by decide +kernel)

theorem brokenQuoteSource_isExpression : ∃ n, IsExpression brokenQuoteSource n :=
  IsExpression.exists_of_parse ⟨.paren, by decide +kernel⟩ (by decide +kernel) (by decide +kernel)

theorem expression_gathered_spread :
    (∃ n, IsExpression spreadSource n ∧ QuotesAttached (Utf8.decode spreadSource) ∧
      Request.gather none (Lines.plain (spreadSource ++ [0x0A])) =
        some (spreadSource, .program (programOf [n]), [])) ∧
    ¬ QuotesAttached (Utf8.decode brokenQuoteSource) ∧
    ∃ taken rest loc, rest ≠ [] ∧ Request.gather none (Lines.plain brokenQuoteSource) =
      some (Text.join [0x0A] taken, .faulty (.structural ⟨loc, .quoteAtEnd⟩), rest) := by
  obtain ⟨n, hn⟩ := spreadSource_isExpression
  obtain ⟨m, hm⟩ := brokenQuoteSource_isExpression
  have hattached : QuotesAttached (Utf8.decode spreadSource) := by
    unfold QuotesAttached
    decide +kernel
  have hbroken : ¬ QuotesAttached (Utf8.decode brokenQuoteSource) := by
    unfold QuotesAttached
    decide +kernel
  obtain ⟨hwhole, -, -⟩ := expression_gathered hn (by decide +kernel) (.inl rfl)
  obtain ⟨-, hfaulty, -⟩ :=
    expression_gathered hm (by decide +kernel) (.inr ⟨rfl, by decide +kernel⟩)
  obtain ⟨taken, rest, loc, -, hrest, hgather, -⟩ := hfaulty hbroken
  exact ⟨⟨n, hn, hattached, (hwhole hattached).1⟩, hbroken, taken, rest, loc, hrest, hgather⟩

/-- **Not every expression is read to its end.** Its first line ends behind a quote and is reported
    as an error, and the second line is left. -/
theorem broken_quote_not_gathered :
    (∃ n, IsExpression brokenQuoteSource n) ∧ 0x0D ∉ brokenQuoteSource ∧
    (Request.gather none (Lines.plain (brokenQuoteSource ++ [0x0A]))).map
      (fun g => (g.1, g.2.1.fault?, g.2.2)) =
        some (Text.ofString "(list '", some (.structural ⟨⟨1, 8⟩, .quoteAtEnd⟩),
          [Text.ofString "a)"]) :=
  ⟨brokenQuoteSource_isExpression, by decide +kernel, by decide +kernel⟩

end SmallLisp
