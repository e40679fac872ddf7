import SmallLisp.Proofs.Node.Grammar
import SmallLisp.Proofs.Text.Utf8
import SmallLisp.Proofs.Token.Lexing

/-!
# Source form reads back

A tree that was read from a text can be written in source form and read again, and nothing is lost
but locations. Trees that can be read are described by `Node.Readable`; the text of such a tree is
lexed into the tokens of a phrase that stands for the same tree (`relexes_render`), and the grammar
does the rest.
-/

namespace SmallLisp

open Phrase

/-! ## 1. Trees without locations -/

namespace Node

/-- Information without the location. -/
def unlocatedInfo (i : NodeInfo) : NodeInfo := ⟨Loc.unknown, i.quoted⟩

mutual

/-- The tree with all locations removed. -/
def unlocated : Node → Node
  | unit i => unit (unlocatedInfo i)
  | atom i name => atom (unlocatedInfo i) name
  | string i text => string (unlocatedInfo i) text
  | number i x => number (unlocatedInfo i) x
  | bool i b => bool (unlocatedInfo i) b
  | list i items => list (unlocatedInfo i) (unlocatedAll items)
  | progn i items => progn (unlocatedInfo i) (unlocatedAll items)

/-- The trees with all locations removed. -/
def unlocatedAll : List Node → List Node
  | [] => []
  | n :: more => n.unlocated :: unlocatedAll more

end

mutual

theorem render_unlocated (n : Node) : n.unlocated.render = n.render := by
  match n with
  | unit _ | atom _ _ | string _ _ | number _ _ | bool _ _ => rfl
  | list i items =>
    rw [unlocated, render, render, renderAll_unlocated items]
    rfl
  | progn i items => rw [unlocated, render, render, renderAll_unlocated items]

theorem renderAll_unlocated (ns : List Node) : renderAll (unlocatedAll ns) = renderAll ns := by
  match ns with
  | [] => rfl
  | [n] => exact render_unlocated n
  | n :: m :: more =>
    have ih := renderAll_unlocated (m :: more)
    rw [unlocatedAll] at ih
    rw [unlocatedAll, unlocatedAll, renderAll, ih, render_unlocated n, renderAll]

end

mutual

theorem sameShape_unlocated (n m : Node) : n.unlocated.sameShape m.unlocated = n.sameShape m := by
  match n with
  | unit _ | atom _ _ | string _ _ | number _ _ | bool _ _ => cases m <;> rfl
  | list i items =>
    cases m with
    | list j others =>
      rw [unlocated, unlocated, sameShape, sameShape, sameShapes_unlocated items others]
      rfl
    | _ => rfl
  | progn i items =>
    cases m with
    | progn j others =>
      rw [unlocated, unlocated, sameShape, sameShape, sameShapes_unlocated items others]
      rfl
    | _ => rfl

theorem sameShapes_unlocated (ns ms : List Node) :
    sameShapes (unlocatedAll ns) (unlocatedAll ms) = sameShapes ns ms := by
  match ns, ms with
  | [], [] | [], _ :: _ | _ :: _, [] => rfl
  | n :: ns, m :: ms =>
    rw [unlocatedAll, unlocatedAll, sameShapes, sameShapes, sameShape_unlocated n m,
      sameShapes_unlocated ns ms]

end

theorem unlocated_withQuote (n : Node) (q : Bool) :
    (n.withQuote q).unlocated = n.unlocated.withQuote q := by
  cases n <;> rfl

/-! ## 2. Trees that can be read -/

mutual

/-- A tree that a phrase can stand for: its leaves are those of proper tokens, and it has no
    programs inside. -/
def Readable : Node → Prop
  | unit _ | progn _ _ => False
  | atom _ name => (TokenKind.atom name).Proper
  | string _ text => (TokenKind.string text).Proper
  | number _ x => x.isFinite = true
  | bool _ _ => True
  | list _ items => AllReadable items

/-- Trees that phrases can stand for. -/
def AllReadable : List Node → Prop
  | [] => True
  | n :: more => n.Readable ∧ AllReadable more

end

mutual

theorem sameShape_self {n : Node} (h : n.Readable) : n.sameShape n = true := by
  match n with
  | unit _ | progn _ _ => cases h
  | atom _ _ | string _ _ | bool _ _ => simp [sameShape]
  | number i x =>
    have hself : (x == x) = true := Binary64.beq_self ((isFinite_iff x).mp h).1
    rw [sameShape, hself]
    simp
  | list i items => rw [sameShape, sameShapes_self h]; simp

theorem sameShapes_self {ns : List Node} (h : AllReadable ns) : sameShapes ns ns = true := by
  match ns with
  | [] => rfl
  | n :: ns => rw [sameShapes, sameShape_self h.1, sameShapes_self h.2]; rfl

end

theorem readable_withQuote {n : Node} (h : n.Readable) (q : Bool) : (n.withQuote q).Readable := by
  cases n <;> exact h

theorem readable_nestQuotes {n : Node} (h : n.Readable) (qs : List Loc) :
    (nestQuotes n qs).Readable := by
  induction qs with
  | nil => exact h
  | cons q qs ih =>
    refine ⟨⟨isWord_of_all ?_ ?_, ?_⟩, ih, trivial⟩
    · decide
    · rfl
    · rfl

theorem readable_afterQuotes {n : Node} (h : n.Readable) (qs : List Loc) :
    (afterQuotes n qs).Readable := by
  cases qs with
  | nil => exact h
  | cons q qs => exact readable_withQuote (readable_nestQuotes h qs) true

mutual

/-- Proper tokens stand for a tree that can be read. -/
theorem readable_bare {p : Phrase} (h : ∀ t ∈ p.tokens, t.kind.Proper) : p.bare.Readable := by
  match p with
  | .number _ _ _ | .string _ _ | .atom _ _ => exact h _ (List.mem_singleton.mpr rfl)
  | .boolean _ _ => exact trivial
  | .quote _ e => exact readable_bare (p := e) fun t ht => h t (List.mem_cons_of_mem _ ht)
  | .list _ _ items _ =>
    show AllReadable (trees items)
    exact allReadable_trees fun t ht => h t (List.mem_cons_of_mem _ (List.mem_append_left _ ht))

theorem allReadable_trees {ps : List Phrase} (h : ∀ t ∈ yield ps, t.kind.Proper) :
    AllReadable (trees ps) := by
  match ps with
  | [] => exact trivial
  | p :: ps =>
    refine ⟨readable_afterQuotes (readable_bare ?_) _, allReadable_trees ?_⟩
    · exact fun t ht => h t (List.mem_append_left _ ht)
    · exact fun t ht => h t (List.mem_append_right _ ht)

end

end Node

/-! ## 3. Lexing source form again -/

open Node

/-- The text is lexed into the tokens of a phrase that stands for the tree `n`. -/
def Relexes (text : List Char) (n : Node) : Prop :=
  ∀ rest loc, EndsWord rest → ∃ (p : Phrase) (loc' : Loc),
    p.tree.unlocated = n.unlocated ∧ Cursor.Reads ⟨text ++ rest, loc⟩ p.tokens ⟨rest, loc'⟩

/-- The text is lexed into the tokens of a phrase without quotes that stands for the tree `n`. -/
def RelexesBare (text : List Char) (n : Node) : Prop :=
  ∀ rest loc, EndsWord rest → ∃ (p : Phrase) (loc' : Loc), p.quotes = [] ∧
    p.bare.unlocated = n.unlocated ∧ Cursor.Reads ⟨text ++ rest, loc⟩ p.tokens ⟨rest, loc'⟩

/-- The quote mark of a tree is lexed into a quote before its phrase. -/
theorem RelexesBare.quoteMark {text : List Char} {n : Node}
    (h : RelexesBare text (n.withQuote false)) :
    Relexes ((Node.quoteMark n.info).toList ++ text) n := by
  intro rest loc hrest
  have hself := n.withQuote_isQuoted
  unfold Node.isQuoted at hself
  unfold Node.quoteMark
  cases hquoted : n.info.quoted with
  | false =>
    rw [hquoted] at hself
    obtain ⟨p, loc', hquotes, htree, hreads⟩ := h rest loc hrest
    refine ⟨p, loc', ?_, hreads⟩
    rw [tree, hquotes, ← hself]
    exact htree
  | true =>
    rw [hquoted] at hself
    obtain ⟨p, loc', hquotes, htree, hreads⟩ := h rest (loc.advance '\'') hrest
    refine ⟨.quote loc p, loc', ?_, (reads_quote _ loc).trans hreads⟩
    rw [tree, Phrase.quotes, hquotes, ← hself]
    show (p.bare.withQuote true).unlocated = _
    rw [unlocated_withQuote, htree, unlocated_withQuote, unlocated_withQuote, withQuote_withQuote]

theorem relexesBare_word {w : List Char} (hw : IsWord w) {kind : TokenKind} {n : Node}
    (h : classify w = .ok kind) (hleaf : ∀ loc, ∃ p : Phrase, p.quotes = [] ∧
      p.bare.unlocated = n.unlocated ∧ p.tokens = [⟨kind, loc⟩]) : RelexesBare w n := by
  intro rest loc hrest
  obtain ⟨p, hquotes, htree, htokens⟩ := hleaf loc
  refine ⟨p, loc.advanceBy w, hquotes, htree, ?_⟩
  rw [htokens]
  exact reads_word hw h hrest loc

theorem relexesBare_string {text : String} (h : '"' ∉ text.toList) (i : NodeInfo) :
    RelexesBare ('"' :: (text.toList ++ ['"'])) ((Node.string i text).withQuote false) := by
  intro rest loc _
  obtain ⟨loc', hreads⟩ := reads_string h rest loc
  rw [String.ofList_toList] at hreads
  refine ⟨.string loc text, loc', rfl, rfl, ?_⟩
  rw [List.cons_append, List.append_assoc]
  exact hreads

theorem endsWord_cons {c : Char} (h : isDelimiter c = true) (rest : List Char) :
    EndsWord (c :: rest) := by
  intro d hd
  cases hd
  exact h

mutual

/-- **The source form of a tree that can be read is lexed into a phrase for that tree.** -/
theorem relexes_render {n : Node} (h : n.Readable) : Relexes n.render.toList n := by
  match n with
  | .unit _ | .progn _ _ => cases h
  | .atom i name =>
    rw [render, String.toList_append]
    refine RelexesBare.quoteMark (n := .atom i name) (relexesBare_word h.1 h.2 fun loc => ?_)
    exact ⟨.atom loc name, rfl, rfl, rfl⟩
  | .string i text =>
    have hbare := RelexesBare.quoteMark (n := .string i text) (relexesBare_string h i)
    rw [render]
    simpa [String.toList_append, Node.info] using hbare
  | .number i x =>
    rw [render, String.toList_append]
    refine RelexesBare.quoteMark (n := .number i x)
      (relexesBare_word (isWord_plain h) (classify_plain h) fun loc => ?_)
    exact ⟨.number loc (Number.plain x) x, rfl, rfl, rfl⟩
  | .bool i b =>
    have hclass : classify (if b then "#t" else "#f").toList = .ok (.boolean b) := by
      cases b <;> rfl
    have hword : IsWord (if b then "#t" else "#f").toList := by
      cases b <;> exact isWord_of_all (by decide) rfl
    rw [render, String.toList_append]
    refine RelexesBare.quoteMark (n := .bool i b) (relexesBare_word hword hclass fun loc => ?_)
    exact ⟨.boolean loc b, rfl, rfl, rfl⟩
  | .list i items =>
    have hbare : RelexesBare ('(' :: ((renderAll items).toList ++ [')']))
        ((Node.list i items).withQuote false) := by
      intro rest loc _
      obtain ⟨ps, loc', htrees, hreads⟩ :=
        relexes_renderAll h (')' :: rest) (loc.advance '(') (endsWord_cons rfl rest)
      refine ⟨.list .paren loc ps loc', loc'.advance ')', rfl, ?_, ?_⟩
      · exact congrArg (Node.list (unlocatedInfo ⟨loc, false⟩)) htrees
      · have hwhole := (reads_opener _ loc).trans (hreads.trans (reads_closer rest loc'))
        rw [List.cons_append, List.append_assoc]
        exact hwhole
    have hquoted := RelexesBare.quoteMark (n := .list i items) hbare
    rw [render]
    simpa [String.toList_append, Node.info] using hquoted

/-- The source forms of trees, with blanks between them, are lexed into phrases for the trees. -/
theorem relexes_renderAll {ns : List Node} (h : AllReadable ns) (rest : List Char) (loc : Loc)
    (hrest : EndsWord rest) : ∃ (ps : List Phrase) (loc' : Loc),
      unlocatedAll (trees ps) = unlocatedAll ns ∧
      Cursor.Reads ⟨(renderAll ns).toList ++ rest, loc⟩ (yield ps) ⟨rest, loc'⟩ := by
  match ns with
  | [] => exact ⟨[], loc, rfl, rfl⟩
  | [n] =>
    obtain ⟨p, loc', htree, hreads⟩ := relexes_render h.1 rest loc hrest
    refine ⟨[p], loc', ?_, ?_⟩
    · exact congrArg ([·]) htree
    · rw [yield_singleton]
      exact hreads
  | n :: m :: more =>
    obtain ⟨p, loc₁, htree, hreads⟩ := relexes_render h.1
      (' ' :: ((renderAll (m :: more)).toList ++ rest)) loc (endsWord_cons rfl _)
    obtain ⟨ps, loc₂, htrees, hmore⟩ := relexes_renderAll h.2 rest (loc₁.advance ' ') hrest
    refine ⟨p :: ps, loc₂, ?_, ?_⟩
    · rw [trees, unlocatedAll, htrees]
      exact congrArg (· :: unlocatedAll (m :: more)) htree
    · have hwhole := hreads.trans ((reads_blank _ loc₁).trans hmore)
      rw [renderAll]
      simpa [String.toList_append, yield] using hwhole

end

/-! ## 4. Programs -/

/-- **Writing what was read and reading it again loses nothing.** -/
theorem parse_render {src : Text} {n : Node} (h : parse src = .ok n) :
    ∃ m, parse (Text.ofString n.render) = .ok m ∧ n.sameShape m = true ∧ m.sameShape n = true ∧
      m.render = n.render := by
  obtain ⟨ps, htokens, rfl⟩ := parse_eq_ok_iff.mp h
  have hproper := proper_of_mem_tokenize (Utf8.decode src)
  rw [htokens] at hproper
  have hreadable := allReadable_trees hproper
  rw [trees_eq_map] at hreadable
  obtain ⟨qs, loc, htrees, hreads⟩ :=
    relexes_renderAll hreadable [] Loc.start (by intro c hc; cases hc)
  rw [trees_eq_map] at htrees
  -- the text is lexed to its end into the tokens of `qs`
  have htokens' : tokenize (Utf8.decode (Text.ofString (programOf (ps.map tree)).render))
      = (yield qs, none) := by
    rw [Utf8.decode_ofString, tokenize_eq]
    rw [List.append_nil] at hreads
    unfold Cursor.Reads at hreads
    rw [Cursor.tokens_nil, List.append_nil] at hreads
    exact hreads
  have hsame : (programOf (qs.map tree)).unlocated = (programOf (ps.map tree)).unlocated :=
    congrArg (Node.progn (unlocatedInfo ⟨Loc.start, false⟩)) htrees
  have hself : (programOf (ps.map tree)).sameShape (programOf (ps.map tree)) = true := by
    rw [programOf, sameShape, sameShapes_self hreadable]
    rfl
  refine ⟨_, parse_eq_ok_iff.mpr ⟨qs, htokens', rfl⟩, ?_, ?_, ?_⟩
  · rw [← sameShape_unlocated, hsame, sameShape_unlocated, hself]
  · rw [← sameShape_unlocated, hsame, sameShape_unlocated, hself]
  · rw [← render_unlocated, hsame, render_unlocated]

/-- A text with nested quotes, another kind of brackets, and numbers that are not in their shortest
    form. -/
def quotedSource : Text := Text.ofString "''x [1.50 -0 \"a b\" #t]"

theorem parse_render_quotedSource : ∃ n m, parse quotedSource = .ok n ∧
    n.render = "'(quote x) (1.5 -0 \"a b\" #t)" ∧ parse (Text.ofString n.render) = .ok m ∧
      n.sameShape m = true ∧ m.sameShape n = true ∧ m.render = n.render := by
  have hrender : (parse quotedSource).toOption.map Node.render
      = some "'(quote x) (1.5 -0 \"a b\" #t)" := by decide +kernel
  cases h : parse quotedSource with
  | error e =>
    rw [h] at hrender
    cases hrender
  | ok n =>
    rw [h] at hrender
    obtain ⟨m, hm⟩ := parse_render h
    exact ⟨n, m, rfl, Option.some.inj hrender, hm⟩

end SmallLisp
