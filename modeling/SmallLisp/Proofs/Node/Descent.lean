import SmallLisp.Node.Reader
import SmallLisp.Proofs.Token.Cursor

/-!
# Going down into lists, and a stack of open ones

A reader goes down into a list when it comes to one, asks for one token after the other, and knows
of the quote before it and no more. A scan (`Scan`) takes all tokens from left to right; it keeps
the open lists on a stack, and the quotes that wait with the places where they stand.

* `Scan.readFrom`: what a scan comes to that goes on from a place in a text;
* `Scan.Follows`: what one call of a reader means to a scan that stands where the call starts;
* `Reader.follows_next`: every call means that, whatever is on the stack;
* `parseChars_eq_readFrom`: reading a text comes to what the scan of its tokens comes to.

The quotes are where the two differ most. A reader builds the lists around an expression under
several quotes on its way back, and moves the mark outwards each time; a scan builds them all at
once, when the expression is complete (`underQuotes`).
-/

namespace SmallLisp

/-! ## 1. The scan -/

/-- A list that has begun and not ended: its opening bracket, the quotes before it and its parts so
    far, newest first. -/
structure OpenList where
  bracket : Bracket
  loc : Loc
  quotes : List Loc
  parts : List Node

/-- What a scan has read: complete expressions, open lists from the inside out, and quotes that wait
    for their expression. All three newest first. -/
structure Scan where
  done : List Node
  stack : List OpenList
  quotes : List Loc

/-- Nothing read yet. -/
def Scan.empty : Scan := ⟨[], [], []⟩

/-- An expression under the quotes before it, given newest first. -/
def underQuotes (n : Node) : List Loc → Node
  | [] => n
  | [_] => n.withQuote true
  | q :: q' :: more =>
    underQuotes (.list ⟨q, false⟩ [.atom ⟨q, false⟩ "quote", n]) (q' :: more)

/-- A complete expression goes to the innermost open list, or to the finished ones. -/
def Scan.add (s : Scan) (n : Node) : Scan :=
  match s.stack with
  | [] => { s with done := n :: s.done, quotes := [] }
  | top :: below => { s with stack := { top with parts := n :: top.parts } :: below, quotes := [] }

/-- The expression of a token that is one by itself. -/
def leaf? (t : Token) : Option Node :=
  match t.kind with
  | .number _ x => some (.number ⟨t.loc, false⟩ x)
  | .boolean b => some (.bool ⟨t.loc, false⟩ b)
  | .string s => some (.string ⟨t.loc, false⟩ s)
  | .atom name => some (.atom ⟨t.loc, false⟩ name)
  | _ => none

/-- Reads a closing bracket. -/
def Scan.close (s : Scan) (loc : Loc) (b : Bracket) : Except StructureError Scan :=
  if ! s.quotes.isEmpty then .error ⟨loc, .nothingToQuote b⟩
  else
    match s.stack with
    | [] => .error ⟨loc, .noOpener b⟩
    | top :: below =>
      if top.bracket = b then
        let n := underQuotes (.list ⟨top.loc, false⟩ top.parts.reverse) top.quotes
        .ok (Scan.add { s with stack := below } n)
      else .error ⟨loc, .mismatched top.bracket top.loc b⟩

/-- Reads one token. -/
def Scan.step (s : Scan) (t : Token) : Except StructureError Scan :=
  match t.kind with
  | .quote => .ok { s with quotes := t.loc :: s.quotes }
  | .opener b => .ok { s with stack := ⟨b, t.loc, s.quotes, []⟩ :: s.stack, quotes := [] }
  | .closer b => s.close t.loc b
  | _ =>
    match leaf? t with
    | some n => .ok (s.add (underQuotes n s.quotes))
    | none => .ok s

/-- Reads tokens in order. -/
def Scan.run (s : Scan) : List Token → Except StructureError Scan
  | [] => .ok s
  | t :: more =>
    match s.step t with
    | .ok s' => s'.run more
    | .error e => .error e

/-- The end of the text: nothing may be waiting or open. -/
def Scan.finish (s : Scan) (loc : Loc) : Except StructureError (List Node) :=
  if ! s.quotes.isEmpty then .error ⟨loc, .quoteAtEnd⟩
  else
    match s.stack with
    | [] => .ok s.done.reverse
    | top :: _ => .error ⟨top.loc, .neverClosed top.bracket⟩

/-! ## 2. Scanning from a place in a text -/

namespace Scan

/-- What reading comes to that has come to a scan and has these tokens ahead of it. -/
def readTokens (s : Scan) (ending : Ending) (ahead : List Token) : Except ReadError (List Node) :=
  match s.run ahead with
  | .error e => .error (.structural e)
  | .ok s' =>
    match ending with
    | .failed e _ => .error (.lexical e)
    | .eof loc => (s'.finish loc).mapError .structural

/-- What reading comes to that has come to a scan and goes on from a cursor. -/
def readFrom (s : Scan) (cur : Cursor) : Except ReadError (List Node) :=
  s.readTokens cur.lexemes.2 (cur.lexemes.1.map Lexeme.token)

theorem readTokens_cons (s : Scan) (ending : Ending) (t : Token) (ahead : List Token) :
    s.readTokens ending (t :: ahead) =
      ((s.step t).mapError .structural).bind (·.readTokens ending ahead) := by
  unfold readTokens
  rw [run]
  cases s.step t <;> rfl

theorem readFrom_of_error {s : Scan} {cur cur' : Cursor} {e : LexError}
    (h : cur.next = (.error e, cur')) : s.readFrom cur = .error (.lexical e) := by
  unfold readFrom
  rw [Cursor.lexemes_eq, h]
  rfl

theorem readFrom_of_eof {s : Scan} {cur cur' : Cursor} {t : Token} (h : cur.next = (.ok t, cur'))
    (ht : t.kind = .eof) : s.readFrom cur = (s.finish t.loc).mapError .structural := by
  unfold readFrom
  rw [Cursor.lexemes_eq, h]
  simp only [ht, if_true]
  rfl

/-- A token other than the end is read by a step, and reading goes on behind it. -/
theorem readFrom_of_token {s : Scan} {cur cur' : Cursor} {t : Token} (h : cur.next = (.ok t, cur'))
    (ht : t.kind ≠ .eof) :
    s.readFrom cur = ((s.step t).mapError .structural).bind (·.readFrom cur') := by
  unfold readFrom
  rw [Cursor.lexemes_eq, h]
  simp only [ht, if_false, List.map_cons]
  exact readTokens_cons s _ t _

theorem readFrom_of_run {s s' : Scan} {cur : Cursor} {ls : List Lexeme} {ending : Ending}
    (hlex : cur.lexemes = (ls, ending)) (hrun : s.run (ls.map Lexeme.token) = .ok s') :
    s.readFrom cur = s'.readTokens ending [] := by
  unfold readFrom readTokens
  rw [hlex, hrun]
  rfl

end Scan

/-! ## 3. What a reader does at a token -/

namespace Reader

/-- What a reader does to the expression behind a quote: nothing, unless there is a quote before
    that one. -/
def quoteAgain (quoting : Bool) (loc : Loc) (item : Item) : Item :=
  if quoting then
    .expr (.list ⟨loc, true⟩ [.atom ⟨loc, false⟩ "quote", item.node.withQuote false])
  else item

/-- The rest of a list that has begun, and the reader behind it. -/
def list (b : Bracket) (info : NodeInfo) (parts : List Node) (r : Reader) :
    Except ReadError Node × Reader := (readList b info parts r).val

section Token

variable {r : Reader} {t : Token} {cur : Cursor}

theorem next_of_error {e : LexError} (h : r.cursor.next = (.error e, cur)) :
    r.next = (.error (.lexical e), ⟨cur, r.quoting⟩) := by
  rw [next, read]
  split
  · rename_i h'
    cases h.symm.trans h'
    rfl
  · rename_i h'
    cases h.symm.trans h'

/-- A token is an expression by itself or says how reading goes on. -/
theorem next_of_token (h : r.cursor.next = (.ok t, cur)) : r.next =
    match t.kind with
    | .eof =>
      (if r.quoting then .error (.structural ⟨t.loc, .quoteAtEnd⟩) else .ok (.eof t.loc),
        ⟨cur, false⟩)
    | .quote => ((next ⟨cur, true⟩).1.map (quoteAgain r.quoting t.loc), (next ⟨cur, true⟩).2)
    | .opener b =>
      ((list b ⟨t.loc, r.quoting⟩ [] ⟨cur, false⟩).1.map .expr,
        (list b ⟨t.loc, r.quoting⟩ [] ⟨cur, false⟩).2)
    | .closer b =>
      (if r.quoting then .error (.structural ⟨t.loc, .nothingToQuote b⟩)
        else .ok (.closer b t.loc), ⟨cur, false⟩)
    | .number _ x => (.ok (.expr (.number ⟨t.loc, r.quoting⟩ x)), ⟨cur, false⟩)
    | .boolean b => (.ok (.expr (.bool ⟨t.loc, r.quoting⟩ b)), ⟨cur, false⟩)
    | .string s => (.ok (.expr (.string ⟨t.loc, r.quoting⟩ s)), ⟨cur, false⟩)
    | .atom name => (.ok (.expr (.atom ⟨t.loc, r.quoting⟩ name)), ⟨cur, false⟩) := by
  rw [next, read]
  split
  · rename_i h'
    cases h.symm.trans h'
  · rename_i h'
    cases h.symm.trans h'
    split
    all_goals
      rename_i hkind
      simp only [hkind]
    · split <;> rfl
    · split
      · rename_i hread
        rw [next, hread]
        rfl
      · rename_i hread
        rw [next, hread]
        unfold quoteAgain
        cases r.quoting <;> rfl
    · unfold list
      split
      · rename_i hread
        rw [hread]
        rfl
      · rename_i hread
        rw [hread]
        rfl
    · split <;> rfl

theorem next_of_leaf (h : r.cursor.next = (.ok t, cur)) {n : Node} (hn : leaf? t = some n) :
    r.next = (.ok (.expr (n.withQuote r.quoting)), ⟨cur, false⟩) := by
  rw [next_of_token h]
  rcases t with ⟨kind, loc⟩
  cases kind <;> cases hn <;> rfl

end Token

/-- The rest of a list goes on until a bracket or the end comes in place of an expression. -/
theorem list_eq (b : Bracket) (info : NodeInfo) (parts : List Node) (r : Reader) :
    list b info parts r =
      match r.next with
      | (.error e, r') => (.error e, r')
      | (.ok (.closer b' loc), r') =>
        (if b' = b then .ok (.list info parts.reverse)
          else .error (.structural ⟨loc, .mismatched b info.loc b'⟩), r')
      | (.ok (.eof _), r') => (.error (.structural ⟨info.loc, .neverClosed b⟩), r')
      | (.ok (.expr n), r') => list b info (n :: parts) r' := by
  rw [list, readList, next]
  split <;> rename_i hread <;> rw [hread]
  · dsimp only
    split <;> rfl
  · rfl

/-- A program goes on until the end comes in place of an expression. -/
theorem programFrom_eq (done : List Node) (r : Reader) :
    r.programFrom done =
      match r.next with
      | (.error e, _) => .error e
      | (.ok (.closer b loc), _) => .error (.structural ⟨loc, .noOpener b⟩)
      | (.ok (.eof _), _) => .ok done.reverse
      | (.ok (.expr n), r') => r'.programFrom (n :: done) := by
  rw [programFrom, next]
  split <;> rename_i hread <;> rw [hread]

/-- An expression takes at least one character. -/
theorem left_lt_of_next {r r' : Reader} {n : Node} (h : r.next = (.ok (.expr n), r')) :
    r'.left < r.left := by
  have hgoes := r.read.property
  rw [show r.read.val = _ from h] at hgoes
  exact hgoes

end Reader

/-! ## 4. What a call means to a scan -/

namespace Node

theorem withQuote_withQuote (n : Node) (q r : Bool) :
    (n.withQuote q).withQuote r = n.withQuote r := by
  cases n <;> rfl

theorem withQuote_isQuoted (n : Node) : n.withQuote n.isQuoted = n := by
  cases n <;> rfl

theorem isQuoted_withQuote (n : Node) (q : Bool) : (n.withQuote q).isQuoted = q := by
  cases n <;> rfl

/-- What a scan adds for an expression that a reader has found behind these quotes. The mark that
    the reader gave it for them is taken off first. -/
def under (n : Node) : List Loc → Node
  | [] => n
  | q :: quotes => underQuotes (n.withQuote false) (q :: quotes)

theorem under_withQuote {n : Node} (h : n.isQuoted = false) (quotes : List Loc) :
    (n.withQuote (! quotes.isEmpty)).under quotes = underQuotes n quotes := by
  have hplain : n.withQuote false = n := by rw [← h, withQuote_isQuoted]
  cases quotes with
  | nil => exact hplain
  | cons q quotes =>
    show underQuotes ((n.withQuote true).withQuote false) (q :: quotes) = _
    rw [withQuote_withQuote, hplain]

end Node

namespace Scan

/-- The scan inside a list that has begun. -/
def opened (s : Scan) (b : Bracket) (loc : Loc) (parts : List Node) : Scan :=
  { s with stack := ⟨b, loc, s.quotes, parts⟩ :: s.stack, quotes := [] }

/-- What a call of a reader means to a scan that stands where the call starts and comes to `total`.
    An error is what it comes to. An expression is added, under the quotes that wait, and the scan
    goes on behind it. A closing bracket and the end are found only where no quote waits, and the
    scan does with them what it does with such a token. -/
def Follows (s : Scan) (total : Except ReadError (List Node)) :
    Except ReadError Item × Reader → Prop
  | (.error e, _) => total = .error e
  | (.ok (.expr n), r') => r'.quoting = false ∧ (s.quotes ≠ [] → n.isQuoted = true) ∧
      total = (s.add (n.under s.quotes)).readFrom r'.cursor
  | (.ok (.closer b loc), r') => r'.quoting = false ∧ s.quotes = [] ∧
      total = ((s.close loc b).mapError .structural).bind (·.readFrom r'.cursor)
  | (.ok (.eof loc), _) => s.quotes = [] ∧ total = (s.finish loc).mapError .structural

/-- Complete expressions are added under the same quotes by whichever call returns them: a call for
    the expression behind a quote, or the call before it that has read that quote. -/
theorem Follows.quoteAgain {s : Scan} {loc : Loc} {total : Except ReadError (List Node)}
    {out : Except ReadError Item × Reader}
    (h : Follows { s with quotes := loc :: s.quotes } total out) :
    s.Follows total (out.1.map (Reader.quoteAgain (! s.quotes.isEmpty) loc), out.2) := by
  rcases out with ⟨e | item, r'⟩
  · exact h
  · cases item with
    | closer b l => cases h.2.1
    | eof l => cases h.1
    | expr n =>
      obtain ⟨hquoting, hquoted, htotal⟩ := h
      have hn : n.isQuoted = true := hquoted (List.cons_ne_nil _ _)
      rcases s with ⟨done, stack, _ | ⟨q, quotes⟩⟩
      · have hmark : (n.withQuote false).withQuote true = n := by
          rw [Node.withQuote_withQuote, ← hn, Node.withQuote_isQuoted]
        refine ⟨hquoting, fun hne => absurd rfl hne, htotal.trans ?_⟩
        show readFrom (add _ ((n.withQuote false).withQuote true)) _ = _
        rw [hmark]
        cases stack <;> rfl
      · refine ⟨hquoting, fun _ => rfl, htotal.trans ?_⟩
        cases stack <;> rfl

/-- A call that returns an expression with the mark of the quotes that wait. -/
theorem follows_marked {s : Scan} {n : Node} {r' : Reader} (hn : n.isQuoted = false)
    (hquoting : r'.quoting = false) :
    s.Follows ((s.add (underQuotes n s.quotes)).readFrom r'.cursor)
      (.ok (.expr (n.withQuote (! s.quotes.isEmpty))), r') := by
  refine ⟨hquoting, fun hne => ?_, ?_⟩
  · rw [Node.isQuoted_withQuote]
    simpa using hne
  · rw [Node.under_withQuote hn]

theorem close_opened (s : Scan) (b : Bracket) (loc loc' : Loc) (parts : List Node) :
    (s.opened b loc parts).close loc' b
      = .ok (s.add (underQuotes (.list ⟨loc, false⟩ parts.reverse) s.quotes)) := by
  rcases s with ⟨done, _ | ⟨top, below⟩, quotes⟩ <;> simp [opened, close, add]

theorem close_opened_ne {b b' : Bracket} (h : b' ≠ b) (s : Scan) (loc loc' : Loc)
    (parts : List Node) :
    (s.opened b loc parts).close loc' b' = .error ⟨loc', .mismatched b loc b'⟩ := by
  simp [opened, close, Ne.symm h]

theorem step_of_leaf {t : Token} {n : Node} (h : leaf? t = some n) (s : Scan) :
    s.step t = .ok (s.add (underQuotes n s.quotes)) ∧ n.isQuoted = false := by
  rcases t with ⟨kind, loc⟩
  cases kind <;> cases h <;> exact ⟨rfl, rfl⟩

end Scan

namespace Reader

/-- Calls from readers with so many characters left mean to every scan what they should: calls for
    an expression, and calls for the rest of a list. -/
structure Faithful (k : Nat) : Prop where
  next : ∀ (r : Reader) (s : Scan), r.left = k → r.quoting = ! s.quotes.isEmpty →
    s.Follows (s.readFrom r.cursor) r.next
  list : ∀ (r : Reader) (s : Scan) (b : Bracket) (info : NodeInfo) (parts : List Node), r.left = k →
    r.quoting = false → info.quoted = ! s.quotes.isEmpty →
    s.Follows ((s.opened b info.loc parts).readFrom r.cursor)
      ((Reader.list b info parts r).1.map .expr, (Reader.list b info parts r).2)

/-- A call for an expression, if shorter calls are faithful. -/
theorem follows_next_of_shorter {r : Reader} (ih : ∀ k < r.left, Faithful k) (s : Scan)
    (hquoting : r.quoting = ! s.quotes.isEmpty) : s.Follows (s.readFrom r.cursor) r.next := by
  rcases hnext : r.cursor.next with ⟨e | t, cur⟩
  · rw [next_of_error hnext]
    exact Scan.readFrom_of_error hnext
  have hshorter (ht : t.kind ≠ .eof) : Faithful cur.rest.length :=
    ih _ (length_rest_next_lt hnext ht)
  cases hleaf : leaf? t with
  | some n =>
    obtain ⟨hstep, hn⟩ := Scan.step_of_leaf hleaf s
    have ht : t.kind ≠ .eof := fun h => by simp [leaf?, h] at hleaf
    rw [next_of_leaf hnext hleaf, hquoting, Scan.readFrom_of_token hnext ht, hstep]
    exact Scan.follows_marked hn rfl
  | none =>
    rw [next_of_token hnext]
    rcases t with ⟨kind, loc⟩
    cases kind with
    | eof =>
      rw [Scan.readFrom_of_eof hnext rfl, hquoting]
      rcases s with ⟨done, stack, _ | ⟨q, quotes⟩⟩
      · exact ⟨rfl, rfl⟩
      · rfl
    | quote =>
      rw [Scan.readFrom_of_token hnext TokenKind.noConfusion, hquoting]
      exact ((hshorter TokenKind.noConfusion).next ⟨cur, true⟩ { s with quotes := loc :: s.quotes }
        rfl rfl).quoteAgain
    | opener b =>
      rw [Scan.readFrom_of_token hnext TokenKind.noConfusion]
      exact (hshorter TokenKind.noConfusion).list ⟨cur, false⟩ s b ⟨loc, r.quoting⟩ [] rfl rfl
        hquoting
    | closer b =>
      rw [Scan.readFrom_of_token hnext TokenKind.noConfusion, hquoting]
      rcases s with ⟨done, stack, _ | ⟨q, quotes⟩⟩
      · exact ⟨rfl, rfl, rfl⟩
      · rfl
    | number | boolean | string | atom => cases hleaf

/-- A call for the rest of a list, if calls for an expression are faithful from there on. -/
theorem follows_list_of_next {r : Reader} (ih : ∀ k < r.left, Faithful k) (s : Scan) (b : Bracket)
    (info : NodeInfo) (parts : List Node) (hquoting : r.quoting = false)
    (hquoted : info.quoted = ! s.quotes.isEmpty) :
    s.Follows ((s.opened b info.loc parts).readFrom r.cursor)
      ((list b info parts r).1.map .expr, (list b info parts r).2) := by
  have hnext := follows_next_of_shorter ih (s.opened b info.loc parts) hquoting
  rw [list_eq]
  rcases hcall : r.next with ⟨e | item, r'⟩
  · rw [hcall] at hnext
    exact hnext
  rw [hcall] at hnext
  cases item with
  | eof l =>
    rw [hnext.2]
    rfl
  | closer b' l =>
    obtain ⟨hquoting', -, htotal⟩ := hnext
    rw [htotal]
    dsimp only
    by_cases hb : b' = b
    · have hmark : Node.list info parts.reverse
          = (Node.list ⟨info.loc, false⟩ parts.reverse).withQuote (! s.quotes.isEmpty) := by
        rw [← hquoted]
        rfl
      rw [hb, Scan.close_opened, if_pos rfl, hmark]
      exact Scan.follows_marked rfl hquoting'
    · rw [Scan.close_opened_ne hb, if_neg hb]
      rfl
  | expr n =>
    obtain ⟨hquoting', -, htotal⟩ := hnext
    rw [htotal]
    exact (ih _ (left_lt_of_next hcall)).list r' s b info (n :: parts) rfl hquoting' hquoted

theorem faithful (k : Nat) : Faithful k := by
  induction k using Nat.strongRecOn with
  | ind k ih =>
    refine ⟨fun r s hk hquoting => ?_, fun r s b info parts hk hquoting hquoted => ?_⟩
    · subst hk
      exact follows_next_of_shorter ih s hquoting
    · subst hk
      exact follows_list_of_next ih s b info parts hquoting hquoted

/-- Every call for an expression means to a scan what it should, if the reader waits with a quote
    where the scan does. -/
theorem follows_next (r : Reader) (s : Scan) (h : r.quoting = ! s.quotes.isEmpty) :
    s.Follows (s.readFrom r.cursor) r.next :=
  (faithful r.left).next r s rfl h

/-! ## 5. Programs -/

/-- A program comes to what a scan comes to that has the same expressions behind it. -/
theorem programFrom_eq_readFrom {r : Reader} {k : Nat} (hk : r.left < k) (done : List Node)
    (hquoting : r.quoting = false) :
    r.programFrom done = Scan.readFrom ⟨done, [], []⟩ r.cursor := by
  induction k generalizing r done with
  | zero => exact absurd hk (Nat.not_lt_zero _)
  | succ k ih =>
    have hnext := follows_next r ⟨done, [], []⟩ hquoting
    rw [programFrom_eq]
    rcases hcall : r.next with ⟨e | item, r'⟩
    · rw [hcall] at hnext
      exact hnext.symm
    rw [hcall] at hnext
    cases item with
    | eof loc => exact hnext.2.symm
    | closer b loc => exact hnext.2.2.symm
    | expr n =>
      obtain ⟨hquoting', -, htotal⟩ := hnext
      have hless := left_lt_of_next hcall
      rw [htotal]
      exact ih (by omega) (n :: done) hquoting'

end Reader

/-- Reading a text is scanning its tokens. -/
theorem parseChars_eq_readFrom (cs : List Char) :
    parseChars cs = Scan.empty.readFrom (Cursor.ofChars cs) :=
  Reader.programFrom_eq_readFrom (Nat.lt_succ_self _) [] rfl

/-- A text is read if it has tokens up to its end, and their scan finishes there. -/
theorem parseChars_eq_ok {cs : List Char} {ns : List Node} : parseChars cs = .ok ns ↔
    ∃ ls l s, (Cursor.ofChars cs).lexemes = (ls, .eof l) ∧
      Scan.empty.run (ls.map Lexeme.token) = .ok s ∧ s.finish l = .ok ns := by
  rw [parseChars_eq_readFrom]
  constructor
  · intro h
    rcases hlex : (Cursor.ofChars cs).lexemes with ⟨ls, ending⟩
    cases hrun : Scan.empty.run (ls.map Lexeme.token) with
    | error e => simp [Scan.readFrom, Scan.readTokens, hlex, hrun] at h
    | ok s =>
      rw [Scan.readFrom_of_run hlex hrun] at h
      cases ending with
      | failed e cur => cases h
      | eof l =>
        have hfinish : (s.finish l).mapError ReadError.structural = .ok ns := h
        cases hs : s.finish l with
        | error e =>
          rw [hs] at hfinish
          cases hfinish
        | ok ms =>
          rw [hs] at hfinish
          cases hfinish
          exact ⟨ls, l, s, rfl, hrun, hs⟩
  · rintro ⟨ls, l, s, hlex, hrun, hfinish⟩
    rw [Scan.readFrom_of_run hlex hrun]
    show (s.finish l).mapError ReadError.structural = .ok ns
    rw [hfinish]
    rfl

end SmallLisp
