import SmallLisp.Proofs.Number.Order
import SmallLisp.Proofs.Token.Gaps

/-!
# Words

What stands between delimiters is read as a whole. A word that starts like a number is a number if
it is spelled like one (`NumberLiteral`) and not too large, and no token at all otherwise; the words
`#t` and `#f` are truth values; every other word is an atom.

* `NumberLiteral.readNumeral?_text`: a number is read as the float nearest to it, with its sign,
  unless it lies beyond the floats;
* `Cursor.AtWord.next_ok`, `Cursor.AtWord.next_error`: a word anywhere in a text is read as a whole.
-/

namespace SmallLisp

open Float.Model Float.Model.UnpackedFloat Binary64

/-! ## 1. Numbers and their spelling -/

/-- An optional minus, digits, and digits after a point if there is one. -/
structure NumberLiteral where
  negative : Bool
  whole : List Char
  fraction : Option (List Char)
  digits : ∀ c ∈ whole ++ fraction.getD [], c.isDigit = true

namespace NumberLiteral

variable (n : NumberLiteral)

/-- The text without the minus. -/
def magnitudeText : List Char := n.whole ++ n.fraction.elim [] ('.' :: ·)

/-- The text. -/
def text : List Char := if n.negative then '-' :: n.magnitudeText else n.magnitudeText

/-- The number without its sign: the digits count units of the last place after the point. -/
def magnitude : ℚ :=
  natOfDigits (n.whole ++ n.fraction.getD []) / 10 ^ (n.fraction.getD []).length

/-- The sign of the float, which zero has too. -/
def sign : Sign := if n.negative then .negative else .positive

/-- The number lies beyond the floats, nearer to the next power of two than to the largest float. -/
def Overflows : Prop := overflowBound ≤ n.magnitude

instance : Decidable n.Overflows := inferInstanceAs (Decidable (overflowBound ≤ n.magnitude))

/-- The float nearest to the number, of two the one with the even mantissa. -/
def toFloat : Float :=
  if n.magnitude = 0 then ofForm (.zero n.sign) else nearest n.sign n.magnitude

/-- The decimal that the digits stand for. -/
def decimal : Decimal :=
  ⟨natOfDigits (n.whole ++ n.fraction.getD []), -(n.fraction.getD []).length⟩

theorem value_decimal : n.decimal.value = n.magnitude := by
  unfold Decimal.value decimal magnitude
  rw [zpow_neg, zpow_natCast, div_eq_mul_inv]

theorem magnitude_eq_zero_iff : n.magnitude = 0 ↔ n.decimal.coefficient = 0 := by
  unfold magnitude
  rw [div_eq_zero_iff, or_iff_left (pow_ne_zero _ (by norm_num)), Nat.cast_eq_zero]
  rfl

end NumberLiteral

theorem neg_ofForm_zero : -ofForm (.zero .positive) = ofForm (.zero .negative) := by
  apply form_injective
  rw [form_neg, form_ofForm (u := .zero .positive) trivial,
    form_ofForm (u := .zero .negative) trivial]
  rfl

theorem neg_nearest {r : ℚ} (hr : 0 < r) : -nearest .positive r = nearest .negative r := by
  apply form_injective
  rw [form_neg]
  rcases lt_or_ge r overflowBound with hlt | hge
  · have hneg : (roundForm .positive r).neg = roundForm .negative r := by
      unfold roundForm unitsForm
      split
      · rfl
      · split <;> rfl
    unfold nearest
    rw [form_ofForm (canonical_of_lt_overflowBound .positive hr hlt),
      form_ofForm (canonical_of_lt_overflowBound .negative hr hlt), hneg]
  · rw [nearest_of_overflowBound_le .positive hge, nearest_of_overflowBound_le .negative hge,
      form_ofForm (u := .infinity .positive) trivial,
      form_ofForm (u := .infinity .negative) trivial]
    rfl

namespace NumberLiteral

variable (n : NumberLiteral)

theorem toFloat_eq : n.toFloat = signed n.negative n.decimal.toFloat := by
  unfold toFloat signed sign
  by_cases h0 : n.decimal.coefficient = 0
  · rw [if_pos (n.magnitude_eq_zero_iff.mpr h0), Decimal.toFloat_zero h0, zero_eq]
    cases n.negative with
    | false => rfl
    | true => exact neg_ofForm_zero.symm
  · rw [if_neg (mt n.magnitude_eq_zero_iff.mp h0), Decimal.toFloat_eq h0, n.value_decimal]
    cases n.negative with
    | false => rfl
    | true => exact (neg_nearest (n.value_decimal ▸ Decimal.value_pos h0)).symm

theorem isInf_iff : n.decimal.toFloat.isInf = true ↔ n.Overflows := by
  unfold Overflows
  by_cases h0 : n.decimal.coefficient = 0
  · rw [Decimal.toFloat_zero h0, n.magnitude_eq_zero_iff.mpr h0]
    have hbound : 0 < overflowBound :=
      sub_pos.mpr (zpow_lt_zpow_right₀ (by norm_num) (by norm_num))
    exact ⟨fun h => (by cases h), fun h => absurd h (not_le.mpr hbound)⟩
  · rw [Decimal.toFloat_eq h0, isInf_nearest_iff _ (Decimal.value_pos h0), n.value_decimal]

theorem readMagnitude?_text :
    readMagnitude? n.magnitudeText = if n.Overflows then none else some n.decimal.toFloat := by
  refine (readMagnitude?_parts n.digits).trans ?_
  show (if n.decimal.toFloat.isInf then none else some n.decimal.toFloat) = _
  simp only [n.isInf_iff]

theorem of_mem_magnitudeText {c : Char} (h : c ∈ n.magnitudeText) :
    c.isDigit = true ∨ c = '.' := by
  have hdigits := n.digits
  unfold magnitudeText at h
  cases hfraction : n.fraction with
  | none =>
    rw [hfraction] at h hdigits
    exact .inl (hdigits c h)
  | some frac =>
    rw [hfraction] at h hdigits
    simp only [Option.elim_some, Option.getD_some, List.mem_append, List.mem_cons] at h hdigits
    rcases h with h | rfl | h
    · exact .inl (hdigits c (.inl h))
    · exact .inr rfl
    · exact .inl (hdigits c (.inr h))

/-- Without the minus a number starts with something else. -/
theorem readNumeral?_magnitudeText :
    readNumeral? n.magnitudeText = readMagnitude? n.magnitudeText := by
  unfold readNumeral?
  split
  · rename_i r hr
    have hminus := n.of_mem_magnitudeText (by rw [hr]; exact List.mem_cons_self)
    exact absurd hminus (by decide)
  · rfl

/-- **A number is read as the float nearest to it**, unless it lies beyond the floats. -/
theorem readNumeral?_text :
    readNumeral? n.text = if n.Overflows then none else some n.toFloat := by
  have hmagnitude := n.readMagnitude?_text
  rw [n.toFloat_eq]
  unfold text
  cases n.negative with
  | false =>
    refine n.readNumeral?_magnitudeText.trans ?_
    rw [hmagnitude]
    rfl
  | true =>
    show (readMagnitude? n.magnitudeText).map (signed true) = _
    rw [hmagnitude]
    split <;> rfl

end NumberLiteral

/-- What is read as a number without its sign is spelled like one. -/
theorem exists_magnitudeText {w : List Char} {x : Float} (h : readMagnitude? w = some x) :
    ∃ n : NumberLiteral, n.negative = false ∧ w = n.magnitudeText := by
  have hwhole : ∀ c ∈ w.takeWhile Char.isDigit, c.isDigit = true :=
    fun c hc => List.mem_takeWhile_imp hc
  have hsplit := List.takeWhile_append_dropWhile (p := Char.isDigit) (l := w)
  unfold readMagnitude? at h
  dsimp only at h
  split at h
  · rename_i hnone
    rw [hnone] at hsplit
    refine ⟨⟨false, w.takeWhile Char.isDigit, none, ?_⟩, rfl, hsplit.symm⟩
    rw [Option.getD_none, List.append_nil]
    exact hwhole
  · rename_i frac hpoint
    rw [hpoint] at hsplit
    split at h
    · rename_i hfrac
      refine ⟨⟨false, w.takeWhile Char.isDigit, some frac, ?_⟩, rfl, hsplit.symm⟩
      intro c hc
      rcases List.mem_append.mp hc with hc | hc
      · exact hwhole c hc
      · exact List.all_eq_true.mp hfrac c hc
    · cases h
  · cases h

/-- **What is read as a number is spelled like one.** -/
theorem exists_text {w : List Char} {x : Float} (h : readNumeral? w = some x) :
    ∃ n : NumberLiteral, w = n.text := by
  unfold readNumeral? at h
  split at h
  · obtain ⟨y, hy, -⟩ := Option.map_eq_some_iff.mp h
    obtain ⟨n, -, rfl⟩ := exists_magnitudeText hy
    exact ⟨{ n with negative := true }, rfl⟩
  · obtain ⟨n, hn, rfl⟩ := exists_magnitudeText h
    refine ⟨n, ?_⟩
    unfold NumberLiteral.text
    rw [hn]
    rfl

/-! ## 2. What a word is -/

/-- The word starts like a number: an optional minus, an optional point and a digit. -/
def StartsNumber (w : List Char) : Prop :=
  ∃ sign point d rest, (sign = [] ∨ sign = ['-']) ∧ (point = [] ∨ point = ['.']) ∧
    d.isDigit = true ∧ w = sign ++ (point ++ d :: rest)

theorem startsNumber_iff (w : List Char) : startsNumber w = true ↔ StartsNumber w := by
  constructor
  · intro h
    unfold startsNumber at h
    dsimp only at h
    split at h
    · rename_i c r hc
      split at hc
      · rename_i r' hr'
        split at hr'
        · exact ⟨['-'], ['.'], c, r, .inr rfl, .inr rfl, h, by rw [hr', hc]; rfl⟩
        · exact ⟨[], ['.'], c, r, .inl rfl, .inr rfl, h, by rw [hr', hc]; rfl⟩
      · split at hc
        · exact ⟨['-'], [], c, r, .inr rfl, .inl rfl, h, by rw [hc]; rfl⟩
        · exact ⟨[], [], c, r, .inl rfl, .inl rfl, h, by rw [hc]; rfl⟩
    · cases h
  · rintro ⟨sign, point, d, rest, hsign, hpoint, hd, rfl⟩
    have hminus : d ≠ '-' := by rintro rfl; cases hd
    have hdot : d ≠ '.' := by rintro rfl; cases hd
    rcases hsign with rfl | rfl <;> rcases hpoint with rfl | rfl <;>
      simp [startsNumber, hminus, hdot, hd]

instance (w : List Char) : Decidable (StartsNumber w) := decidable_of_iff _ (startsNumber_iff w)

/-- The word is spelled like a number, and that is not too large. -/
def IsNumber (w : List Char) : Prop := ∃ n : NumberLiteral, w = n.text ∧ ¬ n.Overflows

theorem isSome_readNumeral?_iff (w : List Char) :
    (readNumeral? w).isSome = true ↔ IsNumber w := by
  constructor
  · intro h
    obtain ⟨x, hx⟩ := Option.isSome_iff_exists.mp h
    obtain ⟨n, rfl⟩ := exists_text hx
    refine ⟨n, rfl, fun hover => ?_⟩
    rw [n.readNumeral?_text, if_pos hover] at hx
    cases hx
  · rintro ⟨n, rfl, hover⟩
    rw [n.readNumeral?_text, if_neg hover]
    rfl

instance (w : List Char) : Decidable (IsNumber w) :=
  decidable_of_iff _ (isSome_readNumeral?_iff w)

theorem classify_number {n : NumberLiteral} (hstart : StartsNumber n.text) (h : ¬ n.Overflows) :
    classify n.text = .ok (.number (String.ofList n.text) n.toFloat) := by
  unfold classify
  dsimp only
  rw [if_pos ((startsNumber_iff _).mpr hstart), n.readNumeral?_text, if_neg h]

theorem classify_malformed {w : List Char} (hstart : StartsNumber w) (h : ¬ IsNumber w) :
    classify w = .error (.malformedNumber (String.ofList w)) := by
  rw [← isSome_readNumeral?_iff, Option.not_isSome_iff_eq_none] at h
  unfold classify
  dsimp only
  rw [if_pos ((startsNumber_iff _).mpr hstart), h]

theorem classify_other {w : List Char} (hstart : ¬ StartsNumber w) :
    classify w = .ok (if w = ['#', 't'] then .boolean true
      else if w = ['#', 'f'] then .boolean false else .atom (String.ofList w)) := by
  have htext (v : List Char) : (String.ofList w == String.ofList v) = true ↔ w = v := by
    rw [beq_iff_eq, String.ofList_inj]
  have htrue : (String.ofList w == "#t") = true ↔ w = ['#', 't'] := htext ['#', 't']
  have hfalse : (String.ofList w == "#f") = true ↔ w = ['#', 'f'] := htext ['#', 'f']
  unfold classify
  dsimp only
  rw [if_neg (mt (startsNumber_iff w).mp hstart)]
  simp only [htrue, hfalse]
  split
  · rfl
  · split <;> rfl

/-! ## 3. Words in a text -/

/-- Brackets, quotes and the backquote: the delimiters that a gap is not made of, but for one. -/
def markChars : List Char := ['(', ')', '[', ']', '\x7b', '\x7d', '\'', '"', '\x60']

/-- The one that is left, which no token starts with. -/
theorem eq_nul_of_isDelimiter {c : Char} (h : isDelimiter c = true) (hgap : EndsGap c)
    (hmark : c ∉ markChars) : c = Char.ofNat 0 := by
  obtain ⟨hspace, hcomment⟩ := hgap
  simp only [markChars, List.mem_cons, List.not_mem_nil, or_false, not_or] at hmark
  simpa [isDelimiter, hspace, hcomment, hmark] using h

theorem endsGap_of_not_delimiter {c : Char} (h : isDelimiter c = false) : EndsGap c := by
  obtain ⟨hspace, hcomment, -, -⟩ := not_delimiter h
  exact ⟨hspace, by simpa using hcomment⟩

theorem tokenAt_nul (loc : Loc) (rest : List Char) : tokenAt loc (Char.ofNat 0) rest =
    (.error ⟨loc, .unexpectedChar (Char.ofNat 0)⟩, ⟨Char.ofNat 0 :: rest, loc⟩) := rfl

namespace Cursor

/-- What is left of a text starts with a gap and then with a word, which may be empty and goes as
    far as it can. -/
structure AtWord (cur : Cursor) (gap w rest : List Char) : Prop where
  split : cur.rest = gap ++ (w ++ rest)
  gap : Gap gap
  word : ∀ c ∈ w, isDelimiter c = false
  ends : EndsWord rest

variable {cur : Cursor} {gap w rest : List Char}

theorem AtWord.next_eq (h : cur.AtWord gap w rest) (hne : w ≠ []) :
    ∃ c v, w = c :: v ∧ IsWord (c :: v) ∧
      cur.next = tokenAt (cur.loc.advanceBy gap) c (v ++ rest) := by
  obtain ⟨c, v, rfl⟩ := List.exists_cons_of_ne_nil hne
  have hc := endsGap_of_not_delimiter (h.word c List.mem_cons_self)
  exact ⟨c, v, rfl, ⟨hne, h.word⟩, next_gap h.split h.gap hc⟩

theorem AtWord.next_ok (h : cur.AtWord gap w rest) (hne : w ≠ []) {kind : TokenKind}
    (hkind : classify w = .ok kind) : cur.next =
      (.ok ⟨kind, cur.loc.advanceBy gap⟩, ⟨rest, (cur.loc.advanceBy gap).advanceBy w⟩) := by
  obtain ⟨c, v, rfl, hword, hnext⟩ := h.next_eq hne
  exact hnext.trans (tokenAt_word hword h.ends _ hkind)

theorem AtWord.next_error (h : cur.AtWord gap w rest) (hne : w ≠ []) {cause : LexCause}
    (hcause : classify w = .error cause) : cur.next =
      (.error ⟨cur.loc.advanceBy gap, cause⟩, ⟨w ++ rest, cur.loc.advanceBy gap⟩) := by
  obtain ⟨c, v, rfl, hword, hnext⟩ := h.next_eq hne
  exact hnext.trans (tokenAt_badWord hword h.ends _ hcause)

/-- Without a word before it, a delimiter that is neither a mark nor part of a gap is a fault. -/
theorem AtWord.next_nul (h : cur.AtWord gap [] rest) {c : Char} (hc : rest.head? = some c)
    (hgap : EndsGap c) (hmark : c ∉ markChars) : c = Char.ofNat 0 ∧ cur.next =
      (.error ⟨cur.loc.advanceBy gap, .unexpectedChar c⟩, ⟨rest, cur.loc.advanceBy gap⟩) := by
  obtain ⟨more, rfl⟩ := List.head?_eq_some_iff.mp hc
  obtain rfl := eq_nul_of_isDelimiter (h.ends c rfl) hgap hmark
  exact ⟨rfl, (next_gap h.split h.gap hgap).trans (tokenAt_nul _ _)⟩

end Cursor

/-- From every place in a text there is a gap to its end, or a gap and then a word or a mark. -/
theorem Cursor.exists_atWord (cur : Cursor) : FinalGap cur.rest ∨
    ∃ gap w rest c, cur.AtWord gap w rest ∧ (w ++ rest).head? = some c ∧ EndsGap c := by
  rcases gapFirst cur.rest with hend | ⟨gap, c, tail, hrest, hgap, hc⟩
  · exact .inl hend
  · have hsplit : (c :: tail).takeWhile (! isDelimiter ·) ++ (c :: tail).dropWhile
        (! isDelimiter ·) = c :: tail := List.takeWhile_append_dropWhile
    refine .inr ⟨gap, _, _, c, ⟨hrest.trans (by rw [hsplit]), hgap, ?_, ?_⟩,
      by rw [hsplit]; rfl, hc⟩
    · intro d hd
      simpa using List.mem_takeWhile_imp hd
    · exact endsWord_dropWhile _

/-- **A word is classified as a whole.** From every place in a text there is a gap to its end, or a
    gap and then the longest run of characters other than delimiters. Unless a bracket, a quote or a
    backquote comes after the gap, that run decides what the lexer gives. If it is empty there is a
    NUL, which no token starts with. If it starts like a number, it is one if it is spelled like one
    and not too large, and a bad token otherwise. The other runs are `#t`, `#f` and atoms. -/
theorem words_classified (cur : Cursor) :
    (FinalGap cur.rest ∨
      ∃ gap w rest c, cur.AtWord gap w rest ∧ (w ++ rest).head? = some c ∧ EndsGap c) ∧
    ∀ {gap w rest : List Char} {c : Char}, cur.AtWord gap w rest → (w ++ rest).head? = some c →
      EndsGap c → c ∉ markChars →
      (w = [] → c = Char.ofNat 0 ∧ cur.next =
        (.error ⟨cur.loc.advanceBy gap, .unexpectedChar c⟩, ⟨rest, cur.loc.advanceBy gap⟩)) ∧
      (StartsNumber w →
        (∀ n : NumberLiteral, w = n.text → ¬ n.Overflows → cur.next =
          (.ok ⟨.number (String.ofList w) n.toFloat, cur.loc.advanceBy gap⟩,
            ⟨rest, cur.loc.advanceBy (gap ++ w)⟩)) ∧
        ((¬ ∃ n : NumberLiteral, w = n.text ∧ ¬ n.Overflows) → cur.next =
          (.error ⟨cur.loc.advanceBy gap, .malformedNumber (String.ofList w)⟩,
            ⟨w ++ rest, cur.loc.advanceBy gap⟩))) ∧
      (w ≠ [] → ¬ StartsNumber w → cur.next =
        (.ok ⟨if w = ['#', 't'] then .boolean true else if w = ['#', 'f'] then .boolean false
            else .atom (String.ofList w), cur.loc.advanceBy gap⟩,
          ⟨rest, cur.loc.advanceBy (gap ++ w)⟩)) := by
  refine ⟨cur.exists_atWord, fun {gap w rest c} h hc hgap hmark => ?_⟩
  rw [Loc.advanceBy_append]
  refine ⟨?_, fun hstart => ?_, fun hne hstart => h.next_ok hne (classify_other hstart)⟩
  · rintro rfl
    exact h.next_nul hc hgap hmark
  · have hne : w ≠ [] := by
      rintro rfl
      exact absurd hstart (by decide)
    refine ⟨?_, fun hnot => h.next_error hne (classify_malformed hstart hnot)⟩
    rintro n rfl hover
    exact h.next_ok hne (classify_number hstart hover)

/-- A comment, a blank and the number `-.5` before a bracket. -/
def halfCursor : Cursor := ⟨[';', 'a', '\n', ' ', '-', '.', '5', ')'], Loc.start⟩

/-- A word with two points. -/
def pointsCursor : Cursor := ⟨['1', '.', '2', '.', '3', ' '], Loc.start⟩

/-- A word that starts like a truth value. -/
def hashCursor : Cursor := ⟨['#', 't', 'x'], Loc.start⟩

/-- The spelling of `-.5`. -/
def minusHalf : NumberLiteral := ⟨true, [], some ['5'], List.all_eq_true.mp rfl⟩

theorem minusHalf_toFloat : minusHalf.toFloat = -0.5 ∧ ¬ minusHalf.Overflows := by
  rw [NumberLiteral.toFloat_eq, ← NumberLiteral.isInf_iff]
  decide +kernel

theorem words_classified_minusHalf :
    halfCursor.next = (.ok ⟨.number "-.5" (-0.5), ⟨2, 2⟩⟩, ⟨[')'], ⟨2, 5⟩⟩) ∧
    pointsCursor.next = (.error ⟨⟨1, 1⟩, .malformedNumber "1.2.3"⟩, pointsCursor) ∧
    hashCursor.next = (.ok ⟨.atom "#tx", ⟨1, 1⟩⟩, ⟨[], ⟨1, 4⟩⟩) := by
  have hword {w : List Char} (hne : w ≠ []) (h : w.all (fun c => !isDelimiter c) = true) :
      ∀ c ∈ w, isDelimiter c = false := (isWord_of_all hne h).2
  have hgap : Gap (';' :: (['a'] ++ '\n' :: [' '])) := .comment (by decide) (.space rfl .nil)
  have hhalf : halfCursor.AtWord [';', 'a', '\n', ' '] ['-', '.', '5'] [')'] :=
    ⟨rfl, hgap, hword (by decide) rfl, fun c hc => by cases hc; rfl⟩
  have hpoints : pointsCursor.AtWord [] ['1', '.', '2', '.', '3'] [' '] :=
    ⟨rfl, .nil, hword (by decide) rfl, fun c hc => by cases hc; rfl⟩
  have hhash : hashCursor.AtWord [] ['#', 't', 'x'] [] :=
    ⟨rfl, .nil, hword (by decide) rfl, fun c hc => by cases hc⟩
  have hnot : ¬ IsNumber ['1', '.', '2', '.', '3'] := by decide
  obtain ⟨-, hnumber, -⟩ := (words_classified halfCursor).2 hhalf rfl (by decide) (by decide)
  obtain ⟨-, hbad, -⟩ := (words_classified pointsCursor).2 hpoints rfl (by decide) (by decide)
  obtain ⟨-, -, hatom⟩ := (words_classified hashCursor).2 hhash rfl (by decide) (by decide)
  obtain ⟨hfloat, hrange⟩ := minusHalf_toFloat
  rw [← hfloat]
  exact ⟨(hnumber (by decide)).1 minusHalf rfl hrange, (hbad (by decide)).2 hnot,
    hatom (by decide) (by decide)⟩

end SmallLisp
