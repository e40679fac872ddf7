import SmallLisp.Proofs.Token.Cursor
import SmallLisp.Proofs.Token.Numeral
import SmallLisp.Proofs.Token.Runs

/-!
# What the lexer reads, and reads again

The rules for `Cursor.Reads` cover what source form consists of: blanks, marks, strings, and words
that end at a delimiter.

The other direction says what tokens can be like (`TokenKind.Proper`): a number is finite, a string
holds no double quote, and an atom is a word that reads as itself. Every token that the lexer gives
is of this kind (`proper_of_mem_tokenize`).
-/

namespace SmallLisp

/-! ## 1. Blanks, marks and strings -/

theorem reads_blank (cs : List Char) (loc : Loc) :
    Cursor.Reads ⟨' ' :: cs, loc⟩ [] ⟨cs, loc.advance ' '⟩ := Cursor.reads_of_next_eq rfl

theorem reads_opener (cs : List Char) (loc : Loc) :
    Cursor.Reads ⟨'(' :: cs, loc⟩ [⟨.opener .paren, loc⟩] ⟨cs, loc.advance '('⟩ :=
  Cursor.reads_of_next rfl TokenKind.noConfusion

theorem reads_closer (cs : List Char) (loc : Loc) :
    Cursor.Reads ⟨')' :: cs, loc⟩ [⟨.closer .paren, loc⟩] ⟨cs, loc.advance ')'⟩ :=
  Cursor.reads_of_next rfl TokenKind.noConfusion

theorem reads_quote (cs : List Char) (loc : Loc) :
    Cursor.Reads ⟨'\'' :: cs, loc⟩ [⟨.quote, loc⟩] ⟨cs, loc.advance '\''⟩ :=
  Cursor.reads_of_next rfl TokenKind.noConfusion

theorem bne_of_not_mem {d : Char} {cs : List Char} (h : d ∉ cs) : ∀ c ∈ cs, (c != d) = true := by
  intro c hc
  rw [bne_iff_ne]
  rintro rfl
  exact h hc

/-- A string ends at its second double quote. -/
theorem tokenAt_string {body : List Char} (h : '"' ∉ body) (rest : List Char) (loc : Loc) :
    tokenAt loc '"' (body ++ '"' :: rest) = (.ok ⟨.string (String.ofList body), loc⟩,
      ⟨rest, ((loc.advance '"').advanceBy body).advance '"'⟩) := by
  have hbody := bne_of_not_mem h
  have htake : (body ++ '"' :: rest).takeWhile (· != '"') = body := by
    rw [List.takeWhile_append_of_pos hbody]
    exact List.append_nil body
  have hdrop : (body ++ '"' :: rest).dropWhile (· != '"') = '"' :: rest := by
    rw [List.dropWhile_append_of_pos hbody]
    rfl
  have hmark : markOf? '"' = none := rfl
  rw [tokenAt_eq]
  rw [hmark]
  simp only [htake, hdrop]
  rfl

/-- Without one it goes to the end of the text. -/
theorem tokenAt_openString {body : List Char} (h : '"' ∉ body) (loc : Loc) :
    tokenAt loc '"' body =
      (.error ⟨loc, .unterminatedString⟩, ⟨[], (loc.advance '"').advanceBy body⟩) := by
  have hbody := bne_of_not_mem h
  have hmark : markOf? '"' = none := rfl
  rw [tokenAt_eq]
  rw [hmark]
  simp only [List.takeWhile_eq_self_iff.mpr hbody, List.dropWhile_eq_nil_iff.mpr hbody]
  rfl

theorem reads_string {body : List Char} (h : '"' ∉ body) (rest : List Char) (loc : Loc) :
    ∃ loc', Cursor.Reads ⟨'"' :: (body ++ '"' :: rest), loc⟩ [⟨.string (String.ofList body), loc⟩]
      ⟨rest, loc'⟩ :=
  ⟨_, Cursor.reads_of_next (tokenAt_string h rest loc) TokenKind.noConfusion⟩

/-! ## 2. Words -/

theorem kind_ne_eof_of_classify {w : List Char} {kind : TokenKind} (h : classify w = .ok kind) :
    kind ≠ .eof := by
  unfold classify at h
  dsimp only at h
  split at h
  · split at h <;> cases h
    exact TokenKind.noConfusion
  · split at h
    · cases h
      exact TokenKind.noConfusion
    · split at h <;> cases h <;> exact TokenKind.noConfusion

section Word

variable {c : Char} {w rest : List Char} (hw : IsWord (c :: w)) (hend : EndsWord rest) (loc : Loc)

include hw hend

theorem tokenAt_word {kind : TokenKind} (h : classify (c :: w) = .ok kind) :
    tokenAt loc c (w ++ rest) = (.ok ⟨kind, loc⟩, ⟨rest, loc.advanceBy (c :: w)⟩) := by
  have hdelim := hw.2 c List.mem_cons_self
  obtain ⟨-, -, hstring, hmark⟩ := not_delimiter hdelim
  obtain ⟨htake, hdrop⟩ := takeWhile_word (fun d hd => hw.2 d (List.mem_cons_of_mem _ hd)) hend
  rw [tokenAt_eq]
  simp only [hmark, hstring, hdelim, htake, hdrop, h, Bool.false_eq_true, if_false]

theorem tokenAt_badWord {cause : LexCause} (h : classify (c :: w) = .error cause) :
    tokenAt loc c (w ++ rest) = (.error ⟨loc, cause⟩, ⟨c :: (w ++ rest), loc⟩) := by
  have hdelim := hw.2 c List.mem_cons_self
  obtain ⟨-, -, hstring, hmark⟩ := not_delimiter hdelim
  obtain ⟨htake, hdrop⟩ := takeWhile_word (fun d hd => hw.2 d (List.mem_cons_of_mem _ hd)) hend
  rw [tokenAt_eq]
  simp only [hmark, hstring, hdelim, htake, h, Bool.false_eq_true, if_false]

end Word

/-- A word is read as what it is as a whole. -/
theorem reads_word {w : List Char} (hw : IsWord w) {kind : TokenKind} (h : classify w = .ok kind)
    {rest : List Char} (hrest : EndsWord rest) (loc : Loc) :
    Cursor.Reads ⟨w ++ rest, loc⟩ [⟨kind, loc⟩] ⟨rest, loc.advanceBy w⟩ := by
  obtain ⟨c, w, rfl⟩ := List.exists_cons_of_ne_nil hw.1
  obtain ⟨hspace, hcomment, -, -⟩ := not_delimiter (hw.2 c List.mem_cons_self)
  refine Cursor.reads_of_next ?_ (kind_ne_eof_of_classify h)
  unfold Cursor.next
  rw [List.cons_append, skipGap]
  simp only [hspace, hcomment, Bool.false_eq_true, if_false]
  exact tokenAt_word hw hrest loc h

/-- A finite float in source form is a word. -/
theorem isWord_plain {x : Float} (h : x.isFinite = true) : IsWord (Number.plain x).toList := by
  have hproper := proper_digitsOf x
  obtain ⟨c, r, hcons, -⟩ := Digits.exists_cons_positional hproper
  have hpositional : ∀ c ∈ (digitsOf x).positional, isDelimiter c = false := by
    intro c hc
    apply isDelimiter_numeral
    unfold Digits.positional at hc
    split at hc
    · exact .inl (Digits.isDigit_wholePart hproper c hc)
    · rename_i frac _
      rcases List.mem_append.mp hc with hc | hc
      · exact .inl (Digits.isDigit_wholePart hproper c hc)
      · rcases List.mem_cons.mp hc with rfl | hc
        · exact .inr (.inl rfl)
        · exact .inl (Digits.isDigit_fractionPart hproper c hc)
  rw [toList_plain h]
  split
  · refine ⟨List.cons_ne_nil _ _, ?_⟩
    intro c hc
    rcases List.mem_cons.mp hc with rfl | hc
    · rfl
    · exact hpositional c hc
  · refine ⟨by rw [hcons]; exact List.cons_ne_nil _ _, hpositional⟩

/-! ## 3. What tokens are like -/

/-- What the lexer guarantees about its tokens. -/
def TokenKind.Proper : TokenKind → Prop
  | .number _ x => x.isFinite = true
  | .string s => '"' ∉ s.toList
  | .atom name => IsWord name.toList ∧ classify name.toList = .ok (.atom name)
  | _ => True

theorem isFinite_iff (x : Float) : x.isFinite = true ↔
    Binary64.form x ≠ .notANumber ∧ x.isInf = false := by
  show (Binary64.form x).isFinite = true ↔ _ ∧ (Binary64.form x).isInf = false
  cases Binary64.form x <;>
    simp [Float.Model.UnpackedFloat.isFinite, Float.Model.UnpackedFloat.isInf]

theorem isFinite_readMagnitude? {w : List Char} {x : Float} (h : readMagnitude? w = some x) :
    x.isFinite = true := by
  have hdecimal {d : Decimal} (h : (if d.toFloat.isInf then none else some d.toFloat) = some x) :
      x.isFinite = true := by
    split at h
    · cases h
    · rename_i hinf
      cases h
      exact (isFinite_iff _).mpr ⟨d.form_toFloat, Bool.not_eq_true _ ▸ hinf⟩
  unfold readMagnitude? at h
  dsimp only at h
  split at h
  · exact hdecimal h
  · split at h
    · exact hdecimal h
    · cases h
  · cases h

theorem isFinite_neg (x : Float) (h : x.isFinite = true) : (-x).isFinite = true := by
  have h' : (Binary64.form x).isFinite = true := h
  show (Binary64.form (-x)).isFinite = true
  rw [Binary64.form_neg]
  cases hx : Binary64.form x <;> rw [hx] at h' <;> first | rfl | cases h'

theorem isFinite_readNumeral? {w : List Char} {x : Float} (h : readNumeral? w = some x) :
    x.isFinite = true := by
  unfold readNumeral? at h
  split at h
  · obtain ⟨y, hy, rfl⟩ := Option.map_eq_some_iff.mp h
    exact isFinite_neg y (isFinite_readMagnitude? hy)
  · exact isFinite_readMagnitude? h

theorem proper_of_classify {w : List Char} (hw : IsWord w) {kind : TokenKind}
    (h : classify w = .ok kind) : kind.Proper := by
  have hclass := h
  unfold classify at h
  dsimp only at h
  split at h
  · split at h
    · rename_i x hx
      cases h
      exact isFinite_readNumeral? hx
    · cases h
  · split at h
    · cases h
      trivial
    · split at h <;> cases h
      · trivial
      · refine ⟨?_, ?_⟩
        · rw [String.toList_ofList]
          exact hw
        · rw [String.toList_ofList]
          exact hclass

theorem markOf?_proper {c : Char} {kind : TokenKind} (h : markOf? c = some kind) : kind.Proper := by
  unfold markOf? at h
  repeat' split at h
  all_goals
    cases h
  all_goals trivial

theorem proper_tokenAt {loc : Loc} {c : Char} {cs : List Char} {t : Token} {cur : Cursor}
    (h : tokenAt loc c cs = (.ok t, cur)) : t.kind.Proper := by
  rw [tokenAt_eq] at h
  split at h
  · rename_i kind hkind
    cases h
    exact markOf?_proper hkind
  · split at h
    · split at h
      · cases h
      · cases h
        show '"' ∉ (String.ofList (cs.takeWhile (· != '"'))).toList
        rw [String.toList_ofList]
        intro hmem
        exact absurd (List.mem_takeWhile_imp hmem) (by decide)
    · split at h
      · cases h
      · rename_i hdelim
        split at h
        · rename_i kind hkind
          cases h
          refine proper_of_classify ⟨List.cons_ne_nil _ _, ?_⟩ hkind
          intro d hd
          rcases List.mem_cons.mp hd with rfl | hd
          · exact Bool.not_eq_true _ ▸ hdelim
          · simpa using List.mem_takeWhile_imp hd
        · cases h

theorem proper_next {cur cur' : Cursor} {t : Token} (h : cur.next = (.ok t, cur')) :
    t.kind.Proper := by
  unfold Cursor.next at h
  split at h
  · cases h
    trivial
  · exact proper_tokenAt h

/-- **Every token of a text is proper.** -/
theorem proper_of_mem_tokenize (cs : List Char) : ∀ t ∈ (tokenize cs).1, t.kind.Proper :=
  forall_mem_tokenize (fun _ _ _ h _ => proper_next h) cs

end SmallLisp
