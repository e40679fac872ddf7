import SmallLisp.Proofs.Node.Descent

/-!
# The grammar of programs

A program is a sequence of expressions; an expression is a number, a boolean, a string, an atom, a
quoted expression, or a list between two brackets of one kind. `Phrase` has one constructor for each
of these productions, so that a phrase is a derivation: `Phrase.tokens` gives the tokens that it
derives, and `Phrase.tree` the tree that it stands for.

* Every derivation is read as its tree (`Scan.run_tokens`).
* What a scan has read without an error is the front of a derivation (`Front`): each step reads one
  more token of it (`Front.step`).
* The grammar is unambiguous (`yield_injective`).

Hence reading succeeds exactly on the derivable texts, and gives the tree of their derivation
(`parse_eq_ok_iff`).
-/

namespace SmallLisp

/-! ## 1. Derivations -/

/-- A derivation of an expression, one constructor for each production. -/
inductive Phrase where
  | number (loc : Loc) (text : String) (x : Float)
  | boolean (loc : Loc) (b : Bool)
  | string (loc : Loc) (s : String)
  | atom (loc : Loc) (name : String)
  | quote (loc : Loc) (e : Phrase)
  | list (b : Bracket) (opened : Loc) (items : List Phrase) (closed : Loc)

/-- An expression inside one list for each location, the first of them outermost. Each list is
    headed by the atom `quote`, and both stand at that location. -/
def nestQuotes (n : Node) : List Loc → Node
  | [] => n
  | l :: more => .list ⟨l, false⟩ [.atom ⟨l, false⟩ "quote", nestQuotes n more]

/-- An expression after the quotes at these locations. The first marks the outermost node, each
    further one nests the expression. -/
def afterQuotes (n : Node) : List Loc → Node
  | [] => n
  | _ :: more => (nestQuotes n more).withQuote true

namespace Phrase

/-- The quotes before a phrase, in order. -/
def quotes : Phrase → List Loc
  | quote loc e => loc :: e.quotes
  | _ => []

mutual

/-- The tokens that a phrase derives. -/
def tokens : Phrase → List Token
  | number loc text x => [⟨.number text x, loc⟩]
  | boolean loc b => [⟨.boolean b, loc⟩]
  | string loc s => [⟨.string s, loc⟩]
  | atom loc name => [⟨.atom name, loc⟩]
  | quote loc e => ⟨.quote, loc⟩ :: e.tokens
  | list b opened items closed => ⟨.opener b, opened⟩ :: (yield items ++ [⟨.closer b, closed⟩])

/-- The tokens that a sequence of phrases derives. -/
def yield : List Phrase → List Token
  | [] => []
  | p :: more => p.tokens ++ yield more

end

mutual

/-- The tree of a phrase without the quotes before it. -/
def bare : Phrase → Node
  | number loc _ x => .number ⟨loc, false⟩ x
  | boolean loc b => .bool ⟨loc, false⟩ b
  | string loc s => .string ⟨loc, false⟩ s
  | atom loc name => .atom ⟨loc, false⟩ name
  | quote _ e => e.bare
  | list _ opened items _ => .list ⟨opened, false⟩ (trees items)

/-- The trees of a sequence of phrases, each with its quotes. -/
def trees : List Phrase → List Node
  | [] => []
  | p :: more => afterQuotes p.bare p.quotes :: trees more

end

/-- The tree of a phrase. -/
def tree (p : Phrase) : Node := afterQuotes p.bare p.quotes

theorem trees_eq_map (ps : List Phrase) : trees ps = ps.map tree := by
  induction ps with
  | nil => rfl
  | cons p ps ih => rw [trees, ih]; rfl

theorem yield_append (ps qs : List Phrase) : yield (ps ++ qs) = yield ps ++ yield qs := by
  induction ps with
  | nil => rfl
  | cons p ps ih => simp only [List.cons_append, yield, ih, List.append_assoc]

theorem yield_singleton (p : Phrase) : yield [p] = p.tokens := by simp [yield]

end Phrase

open Phrase

/-! ## 2. Quotes

The scan holds quotes newest first and wraps the expression from the inside; a derivation has them
in order. -/

theorem nestQuotes_append (n : Node) (ls : List Loc) (l : Loc) :
    nestQuotes n (ls ++ [l]) = nestQuotes (.list ⟨l, false⟩ [.atom ⟨l, false⟩ "quote", n]) ls := by
  induction ls with
  | nil => rfl
  | cons l' ls ih => rw [List.cons_append, nestQuotes, ih, nestQuotes]

theorem underQuotes_snoc (n : Node) (ls : List Loc) (q : Loc) :
    underQuotes n (ls ++ [q]) = (nestQuotes n ls.reverse).withQuote true := by
  induction ls generalizing n with
  | nil => rfl
  | cons l ls ih =>
    have hstep : underQuotes n (l :: (ls ++ [q]))
        = underQuotes (.list ⟨l, false⟩ [.atom ⟨l, false⟩ "quote", n]) (ls ++ [q]) := by
      cases ls <;> rfl
    rw [List.cons_append, hstep, ih, List.reverse_cons, nestQuotes_append]

theorem underQuotes_reverse (n : Node) (qs : List Loc) :
    underQuotes n qs.reverse = afterQuotes n qs := by
  cases qs with
  | nil => rfl
  | cons q qs => rw [List.reverse_cons, underQuotes_snoc, List.reverse_reverse]; rfl

/-! ## 3. Every derivation is read -/

/-- The scan with complete expressions added, in order. -/
def Scan.addAll (s : Scan) (ns : List Node) : Scan := ns.foldl Scan.add s

theorem Scan.quotes_add (s : Scan) (n : Node) : (s.add n).quotes = [] := by
  unfold Scan.add
  split <;> rfl

theorem Scan.add_of_quotes (s : Scan) (qs : List Loc) (n : Node) :
    Scan.add { s with quotes := qs } n = s.add n := by
  obtain ⟨done, stack, quotes⟩ := s
  cases stack <;> rfl

/-- Outside every list, expressions are finished. -/
theorem Scan.addAll_done (done : List Node) (ns : List Node) :
    Scan.addAll ⟨done, [], []⟩ ns = ⟨ns.reverse ++ done, [], []⟩ := by
  induction ns generalizing done with
  | nil => rfl
  | cons n ns ih =>
    show Scan.addAll ⟨n :: done, [], []⟩ ns = _
    rw [ih, List.reverse_cons, List.append_assoc, List.singleton_append]

/-- Inside an open list, expressions become its parts. -/
theorem Scan.addAll_open (done : List Node) (b : Bracket) (loc : Loc) (qs : List Loc)
    (parts : List Node) (below : List OpenList) (ns : List Node) :
    Scan.addAll ⟨done, ⟨b, loc, qs, parts⟩ :: below, []⟩ ns
      = ⟨done, ⟨b, loc, qs, ns.reverse ++ parts⟩ :: below, []⟩ := by
  induction ns generalizing parts with
  | nil => rfl
  | cons n ns ih =>
    show Scan.addAll ⟨done, ⟨b, loc, qs, n :: parts⟩ :: below, []⟩ ns = _
    rw [ih, List.reverse_cons, List.append_assoc, List.singleton_append]

theorem Scan.step_closer (done : List Node) (b : Bracket) (opened closed : Loc) (qs : List Loc)
    (parts : List Node) (below : List OpenList) :
    Scan.step ⟨done, ⟨b, opened, qs, parts⟩ :: below, []⟩ ⟨.closer b, closed⟩
      = .ok (Scan.add ⟨done, below, []⟩
          (underQuotes (.list ⟨opened, false⟩ parts.reverse) qs)) := by
  simp [Scan.step, Scan.close]

mutual

/-- **Reading the tokens of a phrase adds its tree**, under the quotes that were waiting. -/
theorem Scan.run_tokens (p : Phrase) (s : Scan) (more : List Token) :
    s.run (p.tokens ++ more)
      = (s.add (underQuotes p.bare (p.quotes.reverse ++ s.quotes))).run more := by
  match p with
  | .number _ _ _ | .boolean _ _ | .string _ _ | .atom _ _ => rfl
  | .quote loc e =>
    have ih := Scan.run_tokens e { s with quotes := loc :: s.quotes } more
    rw [Scan.add_of_quotes] at ih
    simpa [Phrase.tokens, Phrase.bare, Phrase.quotes, Scan.run, Scan.step] using ih
  | .list b opened items closed =>
    -- the list opens with the quotes before it put by, and closes with them in force
    have hitems := Scan.run_yield items ⟨s.done, ⟨b, opened, s.quotes, []⟩ :: s.stack, []⟩
      (⟨.closer b, closed⟩ :: more) rfl
    rw [Scan.addAll_open, List.append_nil, Scan.run, Scan.step_closer, List.reverse_reverse]
      at hitems
    show Scan.run _ (yield items ++ [_] ++ more) = _
    rw [List.append_assoc, List.singleton_append, hitems]
    exact congrArg (Scan.run · more) (s.add_of_quotes [] _)

/-- **Reading the tokens of phrases adds their trees.** -/
theorem Scan.run_yield (ps : List Phrase) (s : Scan) (more : List Token) (hq : s.quotes = []) :
    s.run (yield ps ++ more) = (s.addAll (trees ps)).run more := by
  match ps with
  | [] => rfl
  | p :: ps =>
    rw [yield, List.append_assoc, Scan.run_tokens p, hq, List.append_nil, underQuotes_reverse,
      Scan.run_yield ps _ more (s.quotes_add _)]
    rfl

end

/-! ## 4. What is read is derived -/

/-- The tokens of quotes that are given newest first. -/
def quoteTokens (qs : List Loc) : List Token := qs.reverse.map fun l => ⟨.quote, l⟩

/-- A phrase with more quotes before it, given newest first. -/
def Phrase.under (p : Phrase) : List Loc → Phrase
  | [] => p
  | q :: more => (Phrase.quote q p).under more

theorem Phrase.tokens_under (p : Phrase) (qs : List Loc) :
    (p.under qs).tokens = quoteTokens qs ++ p.tokens := by
  induction qs generalizing p with
  | nil => rfl
  | cons q qs ih => rw [under, ih]; simp [quoteTokens, tokens]

theorem Phrase.bare_under (p : Phrase) (qs : List Loc) : (p.under qs).bare = p.bare := by
  induction qs generalizing p with
  | nil => rfl
  | cons q qs ih => rw [under, ih]; rfl

theorem Phrase.quotes_under (p : Phrase) (qs : List Loc) :
    (p.under qs).quotes = qs.reverse ++ p.quotes := by
  induction qs generalizing p with
  | nil => rfl
  | cons q qs ih => rw [under, ih]; simp [quotes]

theorem Phrase.tree_under {p : Phrase} (h : p.quotes = []) (qs : List Loc) :
    (p.under qs).tree = underQuotes p.bare qs := by
  rw [tree, bare_under, quotes_under, h, List.append_nil, ← underQuotes_reverse,
    List.reverse_reverse]

/-- A list of a derivation that has begun and not ended. -/
structure OpenPhrase where
  bracket : Bracket
  loc : Loc
  quotes : List Loc
  parts : List Phrase

/-- The front of a derivation: complete phrases, open lists from the inside out, and waiting quotes,
    all newest first. -/
structure Front where
  done : List Phrase
  stack : List OpenPhrase
  quotes : List Loc

namespace Front

/-- The tokens of an open list. -/
def openTokens (o : OpenPhrase) : List Token :=
  quoteTokens o.quotes ++ ⟨.opener o.bracket, o.loc⟩ :: yield o.parts.reverse

/-- The tokens of a front. -/
def tokens (f : Front) : List Token :=
  yield f.done.reverse ++ f.stack.reverse.flatMap openTokens ++ quoteTokens f.quotes

/-- The scan that has built the trees of a front. -/
def scan (f : Front) : Scan :=
  ⟨f.done.map tree, f.stack.map fun o => ⟨o.bracket, o.loc, o.quotes, o.parts.map tree⟩, f.quotes⟩

/-- A complete phrase goes to the innermost open list, or to the complete ones. -/
def add (f : Front) (p : Phrase) : Front :=
  match f.stack with
  | [] => ⟨p :: f.done, [], []⟩
  | top :: below => ⟨f.done, { top with parts := p :: top.parts } :: below, []⟩

theorem scan_add (f : Front) (p : Phrase) : (f.add p).scan = f.scan.add p.tree := by
  obtain ⟨done, stack, quotes⟩ := f
  cases stack <;> rfl

theorem tokens_add (f : Front) (p : Phrase) :
    (f.add p).tokens = yield f.done.reverse ++ f.stack.reverse.flatMap openTokens ++ p.tokens := by
  obtain ⟨done, stack, quotes⟩ := f
  cases stack with
  | nil => simp [add, tokens, quoteTokens, yield_append, yield_singleton]
  | cons top below =>
    simp [add, tokens, openTokens, quoteTokens, yield_append, yield_singleton]

theorem tokens_add_under (f : Front) (p : Phrase) :
    (f.add (p.under f.quotes)).tokens = f.tokens ++ p.tokens := by
  rw [tokens_add, tokens_under, tokens]
  simp only [List.append_assoc]

/-- A token that is an expression by itself is a phrase without quotes. -/
theorem exists_leaf {t : Token} {n : Node} (h : leaf? t = some n) :
    ∃ p : Phrase, p.tokens = [t] ∧ p.quotes = [] ∧ p.bare = n := by
  obtain ⟨kind, loc⟩ := t
  cases kind <;> simp only [leaf?, Option.some.injEq, reduceCtorEq] at h <;> subst h
  · exact ⟨.number loc _ _, rfl, rfl, rfl⟩
  · exact ⟨.boolean loc _, rfl, rfl, rfl⟩
  · exact ⟨.string loc _, rfl, rfl, rfl⟩
  · exact ⟨.atom loc _, rfl, rfl, rfl⟩

/-- A closing bracket that is accepted completes the innermost open list. -/
theorem close {f : Front} {loc : Loc} {b : Bracket} {s : Scan} (h : f.scan.close loc b = .ok s) :
    ∃ g : Front, g.scan = s ∧ g.tokens = f.tokens ++ [⟨.closer b, loc⟩] := by
  obtain ⟨done, stack, quotes⟩ := f
  unfold Scan.close at h
  split at h
  · cases h
  · rename_i hq
    have hquotes : quotes = [] := by simpa [scan] using hq
    subst hquotes
    cases stack with
    | nil => cases h
    | cons top below =>
      simp only [scan, List.map_cons] at h
      split at h
      · rename_i hb
        cases h
        -- the list stands under the quotes that waited when it was opened
        let outer : Front := ⟨done, below, top.quotes⟩
        let whole : Phrase := .list top.bracket top.loc top.parts.reverse loc
        refine ⟨outer.add (whole.under top.quotes), ?_, ?_⟩
        · rw [scan_add, tree_under rfl]
          have hbare : whole.bare = .list ⟨top.loc, false⟩ (top.parts.map tree).reverse := by
            rw [bare, trees_eq_map, List.map_reverse]
          rw [hbare]
          exact Scan.add_of_quotes ⟨done.map tree, _, []⟩ top.quotes _
        · rw [tokens_add_under outer whole]
          simp [tokens, outer, whole, openTokens, Phrase.tokens, hb, quoteTokens]
      · cases h

/-- **One step reads one more token of a derivation.** -/
theorem step {f : Front} {t : Token} {s : Scan} (ht : t.kind ≠ .eof)
    (h : f.scan.step t = .ok s) : ∃ g : Front, g.scan = s ∧ g.tokens = f.tokens ++ [t] := by
  unfold Scan.step at h
  split at h
  · rename_i hk
    cases h
    refine ⟨{ f with quotes := t.loc :: f.quotes }, rfl, ?_⟩
    simp [tokens, quoteTokens, ← hk]
  · rename_i b hk
    cases h
    refine ⟨⟨f.done, ⟨b, t.loc, f.quotes, []⟩ :: f.stack, []⟩, rfl, ?_⟩
    simp [tokens, openTokens, quoteTokens, yield, ← hk]
  · rename_i b hk
    obtain ⟨g, hg, htok⟩ := close h
    refine ⟨g, hg, ?_⟩
    rw [htok, ← hk]
  · split at h
    · rename_i n hn
      cases h
      obtain ⟨p, hp, hquotes, rfl⟩ := exists_leaf hn
      refine ⟨f.add (p.under f.quotes), ?_, ?_⟩
      · rw [scan_add, tree_under hquotes]
        rfl
      · rw [tokens_add_under, hp]
    · rename_i hquote hopen hclose hleaf
      -- only the end of the text is neither a mark nor an expression
      obtain ⟨kind, loc⟩ := t
      cases kind <;> simp_all [leaf?]

/-- What a scan has read without an error is the front of a derivation. -/
theorem run {f : Front} {ts : List Token} {s : Scan} (ht : ∀ t ∈ ts, t.kind ≠ .eof)
    (h : f.scan.run ts = .ok s) : ∃ g : Front, g.scan = s ∧ g.tokens = f.tokens ++ ts := by
  induction ts generalizing f with
  | nil =>
    cases h
    exact ⟨f, rfl, (List.append_nil _).symm⟩
  | cons t ts ih =>
    unfold Scan.run at h
    split at h
    · rename_i s' hs'
      obtain ⟨f', rfl, hf'⟩ := step (ht t List.mem_cons_self) hs'
      obtain ⟨g, hg, htok⟩ := ih (fun u hu => ht u (List.mem_cons_of_mem t hu)) h
      refine ⟨g, hg, ?_⟩
      rw [htok, hf', List.append_assoc, List.singleton_append]
    · cases h

/-- At the end of the text the front is a whole derivation. -/
theorem finish {f : Front} {loc : Loc} {ns : List Node} (h : f.scan.finish loc = .ok ns) :
    ∃ ps : List Phrase, f.tokens = yield ps ∧ ns = ps.map tree := by
  obtain ⟨done, stack, quotes⟩ := f
  unfold Scan.finish at h
  split at h
  · cases h
  · rename_i hq
    have hquotes : quotes = [] := by simpa [scan] using hq
    subst hquotes
    cases stack with
    | nil =>
      cases h
      refine ⟨done.reverse, ?_, ?_⟩
      · simp [tokens, quoteTokens]
      · exact List.map_reverse.symm
    | cons top below => cases h

end Front

/-! ## 5. The grammar is unambiguous -/

/-- What can follow a sequence of phrases: nothing, or a closing bracket. -/
def EndsSequence : List Token → Prop
  | [] => True
  | t :: _ => ∃ b, t.kind = .closer b

theorem not_endsSequence_tokens (p : Phrase) (r : List Token) : ¬ EndsSequence (p.tokens ++ r) := by
  cases p <;> simp [Phrase.tokens, EndsSequence]

mutual

theorem tokens_append_inj (p q : Phrase) {r r' : List Token}
    (h : p.tokens ++ r = q.tokens ++ r') : p = q ∧ r = r' := by
  match p with
  | .number _ _ _ | .boolean _ _ | .string _ _ | .atom _ _ =>
    cases q <;> simp_all [Phrase.tokens]
  | .quote loc e =>
    cases q with
    | quote loc' e' =>
      simp only [Phrase.tokens, List.cons_append, List.cons.injEq, Token.mk.injEq, true_and] at h
      obtain ⟨rfl, rfl⟩ := tokens_append_inj e e' h.2
      exact ⟨by rw [h.1], rfl⟩
    | _ => simp [Phrase.tokens] at h
  | .list b opened items closed =>
    cases q with
    | list b' opened' items' closed' =>
      simp only [Phrase.tokens, List.cons_append, List.append_assoc, List.nil_append,
        List.cons.injEq, Token.mk.injEq, TokenKind.opener.injEq] at h
      obtain ⟨⟨rfl, rfl⟩, hrest⟩ := h
      have hends (loc : Loc) (r : List Token) : EndsSequence (⟨.closer b, loc⟩ :: r) := ⟨b, rfl⟩
      obtain ⟨rfl, hclosed⟩ := yield_append_inj items items' (hends _ _) (hends _ _) hrest
      simp only [List.cons.injEq, Token.mk.injEq, true_and] at hclosed
      exact ⟨by rw [hclosed.1], hclosed.2⟩
    | _ => simp [Phrase.tokens] at h

theorem yield_append_inj (ps qs : List Phrase) {r r' : List Token} (hr : EndsSequence r)
    (hr' : EndsSequence r') (h : yield ps ++ r = yield qs ++ r') : ps = qs ∧ r = r' := by
  match ps with
  | [] =>
    cases qs with
    | nil => exact ⟨rfl, h⟩
    | cons q qs =>
      rw [yield, yield, List.append_assoc, List.nil_append] at h
      exact absurd (h ▸ hr) (not_endsSequence_tokens q _)
  | p :: ps =>
    cases qs with
    | nil =>
      rw [yield, yield, List.append_assoc, List.nil_append] at h
      exact absurd (h ▸ hr') (not_endsSequence_tokens p _)
    | cons q qs =>
      rw [yield, yield, List.append_assoc, List.append_assoc] at h
      obtain ⟨rfl, hrest⟩ := tokens_append_inj p q h
      obtain ⟨rfl, hr⟩ := yield_append_inj ps qs hr hr' hrest
      exact ⟨rfl, hr⟩

end

/-- Tokens have at most one derivation. -/
theorem yield_injective : Function.Injective yield := by
  intro ps qs h
  exact (@yield_append_inj ps qs [] [] trivial trivial (by rw [h])).1

/-! ## 6. Programs -/

theorem lexemes_of_tokenize {cs : List Char} {ts : List Token} (h : tokenize cs = (ts, none)) :
    ∃ ls l, (Cursor.ofChars cs).lexemes = (ls, .eof l) ∧ ls.map Lexeme.token = ts := by
  unfold tokenize at h
  rcases hlex : (Cursor.ofChars cs).lexemes with ⟨ls, ending⟩
  rw [hlex] at h
  cases ending with
  | failed e cur => simp at h
  | eof l => exact ⟨ls, l, rfl, (Prod.mk.inj h).1⟩

/-- Reading characters succeeds exactly on the derivable ones. -/
theorem parseChars_eq_ok_iff {cs : List Char} {ns : List Node} : parseChars cs = .ok ns ↔
    ∃ ps : List Phrase, tokenize cs = (yield ps, none) ∧ ns = ps.map tree := by
  constructor
  · intro h
    obtain ⟨ls, loc, s, hlex, hrun, hfinish⟩ := parseChars_eq_ok.mp h
    have htok : tokenize cs = (ls.map Lexeme.token, none) := by
      unfold tokenize
      rw [hlex]
    have heof : ∀ t ∈ (tokenize cs).1, t.kind ≠ .eof :=
      forall_mem_tokenize (fun _ _ _ _ ht => ht) cs
    rw [htok] at heof
    obtain ⟨f, rfl, hf⟩ := Front.run (f := ⟨[], [], []⟩) heof hrun
    obtain ⟨ps, hps, rfl⟩ := Front.finish hfinish
    have hts : ls.map Lexeme.token = yield ps := by rw [← hps, hf]; rfl
    exact ⟨ps, by rw [htok, hts], rfl⟩
  · rintro ⟨ps, htok, rfl⟩
    have hrun := Scan.run_yield ps Scan.empty [] rfl
    rw [List.append_nil] at hrun
    obtain ⟨ls, loc, hlex, hls⟩ := lexemes_of_tokenize htok
    refine parseChars_eq_ok.mpr ⟨ls, loc, _, hlex, hls ▸ hrun, ?_⟩
    rw [Scan.empty, Scan.addAll_done, trees_eq_map]
    simp [Scan.finish]

theorem parse_eq_ok_iff {src : Text} {n : Node} : parse src = .ok n ↔ ∃ ps : List Phrase,
    tokenize (Utf8.decode src) = (yield ps, none) ∧ n = programOf (ps.map tree) := by
  unfold parse
  constructor
  · intro h
    split at h
    · rename_i ns hns
      cases h
      obtain ⟨ps, htok, rfl⟩ := parseChars_eq_ok_iff.mp hns
      exact ⟨ps, htok, rfl⟩
    · cases h
  · rintro ⟨ps, htok, rfl⟩
    rw [parseChars_eq_ok_iff.mpr ⟨ps, htok, rfl⟩]

/-- **The reader accepts exactly the grammar and builds exactly its tree.** A text is read as the
    program `n` when its tokens derive from the grammar and `n` holds the trees of the derivation in
    order; and no tokens have two derivations. -/
theorem parse_iff_derivation (src : Text) :
    (∀ n, parse src = .ok n ↔ ∃ ps : List Phrase,
      tokenize (Utf8.decode src) = (yield ps, none) ∧ n = programOf (ps.map tree)) ∧
    Function.Injective yield :=
  ⟨fun _ => parse_eq_ok_iff, yield_injective⟩

end SmallLisp
