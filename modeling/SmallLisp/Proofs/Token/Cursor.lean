import SmallLisp.Token.Lexer

/-!
# A text token by token

The lexer reads all tokens of a text by asking for the next one until the end. `Cursor.Reads` says
that from one cursor it reads certain tokens and arrives at another, and `forall_mem_tokenize` that
what holds of every next token holds of all tokens of a text.
-/

namespace SmallLisp

/-! ## 1. From cursor to cursor -/

/-- The tokens from a cursor on, and the error that ends them if there is one. -/
def Cursor.tokens (cur : Cursor) : List Token × Option LexError :=
  let (lexemes, ending) := cur.lexemes
  (lexemes.map Lexeme.token, match ending with
    | .eof _ => none
    | .failed e _ => some e)

theorem tokenize_eq (cs : List Char) : tokenize cs = (Cursor.ofChars cs).tokens := rfl

/-- From `cur` the lexer reads `ts` and arrives at `cur'`. -/
def Cursor.Reads (cur : Cursor) (ts : List Token) (cur' : Cursor) : Prop :=
  cur.tokens = (ts ++ cur'.tokens.1, cur'.tokens.2)

theorem Cursor.Reads.trans {cur cur' cur'' : Cursor} {ts us : List Token} (h : cur.Reads ts cur')
    (h' : cur'.Reads us cur'') : cur.Reads (ts ++ us) cur'' := by
  unfold Cursor.Reads at h h' ⊢
  rw [h, h', List.append_assoc]

theorem Cursor.lexemes_eq (cur : Cursor) : cur.lexemes = match cur.next with
    | (.error e, cur') => ([], .failed e cur')
    | (.ok t, cur') =>
      if t.kind = .eof then ([], .eof t.loc)
      else (⟨t, cur'.loc⟩ :: cur'.lexemes.1, cur'.lexemes.2) := by
  rw [Cursor.lexemes]
  split
  · rename_i h
    rw [h]
  · rename_i h
    simp only [h]
    split <;> rfl

/-- The tokens from a cursor on are the next token and those from there. -/
theorem Cursor.tokens_eq (cur : Cursor) : cur.tokens = match cur.next with
    | (.error e, _) => ([], some e)
    | (.ok t, cur') =>
      if t.kind = .eof then ([], none) else (t :: cur'.tokens.1, cur'.tokens.2) := by
  unfold Cursor.tokens
  rw [Cursor.lexemes_eq]
  rcases cur.next with ⟨e | t, cur'⟩
  · rfl
  · dsimp only
    split <;> rfl

theorem Cursor.reads_of_next {cur cur' : Cursor} {t : Token} (h : cur.next = (.ok t, cur'))
    (ht : t.kind ≠ .eof) : cur.Reads [t] cur' := by
  unfold Cursor.Reads
  rw [Cursor.tokens_eq, h]
  dsimp only
  rw [if_neg ht]
  rfl

theorem Cursor.reads_of_next_eq {cur cur' : Cursor} (h : cur.next = cur'.next) :
    cur.Reads [] cur' := by
  unfold Cursor.Reads
  rw [Cursor.tokens_eq, h, ← Cursor.tokens_eq]
  rfl

theorem Cursor.tokens_nil (loc : Loc) : Cursor.tokens ⟨[], loc⟩ = ([], none) := by
  rw [Cursor.tokens_eq]
  rfl

/-! ## 2. All tokens of a text -/

/-- What holds of every next token holds of all tokens of a text. -/
theorem forall_mem_tokenize {P : Token → Prop}
    (h : ∀ cur cur' t, Cursor.next cur = (.ok t, cur') → t.kind ≠ .eof → P t) (cs : List Char) :
    ∀ t ∈ (tokenize cs).1, P t := by
  have hlexemes (cur : Cursor) : ∀ l ∈ cur.lexemes.1, P l.token := by
    fun_induction Cursor.lexemes cur with
    | case1 => simp
    | case2 => simp
    | case3 cur t cur' hnext ht _ more ending hmore ih =>
      intro l hl
      rcases List.mem_cons.mp hl with rfl | hl
      · exact h cur cur' t hnext ht
      · rw [hmore] at ih
        exact ih l hl
  intro t ht
  obtain ⟨l, hl, rfl⟩ := List.mem_map.mp ht
  exact hlexemes _ l hl

end SmallLisp
