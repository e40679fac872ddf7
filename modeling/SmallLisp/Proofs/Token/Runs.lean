import SmallLisp.Token.Lexer

/-!
# Runs of characters

The lexer tries a number, a truth value and an atom in turn, and each of them looks ahead in its own
way: for the end of the digits, for the end of the word, for a delimiter two places ahead. What they
come to together is one rule. The longest run of characters other than delimiters decides as a
whole, and it is taken as a whole or not at all:

* `classify`: what token a run is;
* `Cursor.wordEnd_eq`, `Cursor.exists_digitRun`: where the two loops stop that look ahead;
* `Cursor.lexNumber_eq`, `Cursor.lexBool_eq`, `Cursor.lexAtom_eq`: each attempt in terms of the run;
* `tokenAt_eq`: the rule.
-/

namespace SmallLisp

/-! ## 1. Runs -/

/-- The run starts like a number: an optional minus, an optional point, a digit. -/
def startsNumber (w : List Char) : Bool :=
  let w := match w with
    | '-' :: r => r
    | _ => w
  let w := match w with
    | '.' :: r => r
    | _ => w
  match w with
  | c :: _ => c.isDigit
  | [] => false

/-- What token a run of characters other than delimiters is. -/
def classify (w : List Char) : Except LexCause TokenKind :=
  let text := String.ofList w
  if startsNumber w then
    match readNumeral? w with
    | some x => .ok (.number text x)
    | none => .error (.malformedNumber text)
  else if text == "#t" then .ok (.boolean true)
  else if text == "#f" then .ok (.boolean false)
  else .ok (.atom text)

/-- Text at which a word ends: no text, or a delimiter. -/
def EndsWord (rest : List Char) : Prop := ∀ c ∈ rest.head?, isDelimiter c = true

/-- A run of characters other than delimiters. -/
def IsWord (w : List Char) : Prop := w ≠ [] ∧ ∀ c ∈ w, isDelimiter c = false

/-- For a given word the test can be run. -/
theorem isWord_of_all {w : List Char} (hne : w ≠ []) (h : w.all (fun c => !isDelimiter c) = true) :
    IsWord w := by
  refine ⟨hne, fun c hc => ?_⟩
  have hc' := List.all_eq_true.mp h c hc
  rwa [Bool.not_eq_true'] at hc'

/-- A character that is no delimiter starts neither a gap nor a mark nor a string. -/
theorem not_delimiter {c : Char} (h : isDelimiter c = false) :
    isSpace c = false ∧ (c == ';') = false ∧ (c == '"') = false ∧ markOf? c = none := by
  unfold isDelimiter at h
  simp only [Bool.or_eq_false_iff] at h
  obtain ⟨⟨⟨⟨⟨⟨⟨⟨⟨⟨⟨-, h₁⟩, h₂⟩, h₃⟩, h₄⟩, h₅⟩, h₆⟩, h₇⟩, h₈⟩, -⟩, h₉⟩, h₁₀⟩ := h
  refine ⟨h₁₀, h₉, h₈, ?_⟩
  unfold markOf?
  simp only [h₁, h₂, h₃, h₄, h₅, h₆, h₇, if_false, Bool.false_eq_true]

theorem forall_not_delimiter {w : List Char} (h : ∀ c ∈ w, isDelimiter c = false) :
    ∀ c ∈ w, (! isDelimiter c) = true := fun c hc => by rw [h c hc]; rfl

theorem takeWhile_word {w rest : List Char} (hw : ∀ c ∈ w, isDelimiter c = false)
    (hrest : EndsWord rest) : (w ++ rest).takeWhile (! isDelimiter ·) = w ∧
      (w ++ rest).dropWhile (! isDelimiter ·) = rest := by
  have hw' := forall_not_delimiter hw
  rw [List.takeWhile_append_of_pos hw', List.dropWhile_append_of_pos hw']
  cases rest with
  | nil => exact ⟨List.append_nil w, rfl⟩
  | cons c rest =>
    have hc : isDelimiter c = true := hrest c rfl
    rw [List.takeWhile_cons, List.dropWhile_cons, hc]
    exact ⟨List.append_nil w, rfl⟩

theorem endsWord_dropWhile (cs : List Char) : EndsWord (cs.dropWhile (! isDelimiter ·)) := by
  intro c hc
  have hhead := List.head?_dropWhile_not (! isDelimiter ·) cs
  rw [hc] at hhead
  simpa using hhead

theorem isDelimiter_digit {c : Char} (h : c.isDigit = true) : isDelimiter c = false := by
  have hne {d : Char} (hd : d.isDigit = false) : (c == d) = false := by
    rw [beq_eq_false_iff_ne]
    rintro rfl
    rw [h] at hd
    cases hd
  unfold isDelimiter isSpace
  simp (disch := decide) only [hne, Bool.or_false]

/-- Digits, points and minus signs are no delimiters. -/
theorem isDelimiter_numeral {c : Char} (h : c.isDigit = true ∨ c = '.' ∨ c = '-') :
    isDelimiter c = false := by
  rcases h with h | rfl | rfl
  · exact isDelimiter_digit h
  · rfl
  · rfl

/-! ## 2. Looking ahead -/

namespace Cursor

/-- The longest run of characters other than delimiters at a cursor, which may be empty. -/
def word (cur : Cursor) : List Char := cur.rest.takeWhile (! isDelimiter ·)

/-- The cursor behind that run. -/
def behindWord (cur : Cursor) : Cursor :=
  ⟨cur.rest.dropWhile (! isDelimiter ·), cur.loc.advanceBy cur.word⟩

theorem peek_eq (cur : Cursor) (i : Nat) :
    cur.peek i = (cur.rest.drop i).head?.getD (Char.ofNat 0) := by
  rw [peek, List.getD_eq_getElem?_getD, List.head?_drop]

theorem drop_eq_cons {cur : Cursor} {i : Nat} (h : cur.peek i ≠ Char.ofNat 0) :
    cur.rest.drop i = cur.peek i :: cur.rest.drop (i + 1) := by
  have hi := lt_length_of_peek h
  have hpeek : cur.peek i = cur.rest[i] := by
    rw [peek, List.getD_eq_getElem?_getD, List.getElem?_eq_getElem hi, Option.getD_some]
  rw [hpeek]
  exact List.drop_eq_getElem_cons hi

/-- A word ends where the character ahead is a delimiter, also at the end of the text. -/
theorem endsWord_drop {cur : Cursor} {i : Nat} (h : isDelimiter (cur.peek i) = true) :
    EndsWord (cur.rest.drop i) := by
  intro c hc
  rw [peek_eq, Option.mem_def.mp hc] at h
  exact h

theorem pass_eq (n : Nat) (cur : Cursor) :
    cur.pass n = ⟨cur.rest.drop n, cur.loc.advanceBy (cur.rest.take n)⟩ := by
  induction n generalizing cur with
  | zero => rfl
  | succ n ih =>
    rw [pass, ih]
    rcases cur with ⟨_ | ⟨c, cs⟩, loc⟩
    · simp [advance, Loc.advanceBy]
    · rfl

/-- To pass the run is to come behind it. -/
theorem pass_word {cur : Cursor} {n : Nat} (h : cur.rest.take n = cur.word) :
    cur.pass n = cur.behindWord := by
  have hsplit : cur.rest.take n ++ cur.rest.drop n = cur.word ++ cur.behindWord.rest :=
    (List.take_append_drop n cur.rest).trans List.takeWhile_append_dropWhile.symm
  rw [h] at hsplit
  rw [pass_eq, List.append_cancel_left hsplit, h]
  rfl

/-- **The loop that looks for the end of a word finds it.** -/
theorem wordEnd_eq (cur : Cursor) (i : Nat) :
    cur.wordEnd i = i + ((cur.rest.drop i).takeWhile (! isDelimiter ·)).length := by
  fun_induction wordEnd cur i with
  | case1 i hdelim =>
    have hnone : (cur.rest.drop i).takeWhile (! isDelimiter ·) = [] :=
      (takeWhile_word (fun _ hc => absurd hc List.not_mem_nil) (endsWord_drop hdelim)).1
    rw [hnone]
    rfl
  | case2 i hdelim ih =>
    have hne : cur.peek i ≠ Char.ofNat 0 := fun h => hdelim (by rw [h]; rfl)
    rw [ih, drop_eq_cons hne, List.takeWhile_cons_of_pos (by simpa using hdelim), List.length_cons]
    omega

/-- From inside the run the loop finds the end of the run. -/
theorem take_wordEnd {cur : Cursor} {i : Nat}
    (h : ∀ c ∈ cur.rest.take i, isDelimiter c = false) :
    cur.rest.take (cur.wordEnd i) = cur.word := by
  have hword : cur.word = cur.rest.take i ++ (cur.rest.drop i).takeWhile (! isDelimiter ·) := by
    rw [← List.takeWhile_append_of_pos (forall_not_delimiter h), List.take_append_drop, word]
  have hrun := List.prefix_iff_eq_take.mp
    (List.takeWhile_prefix (l := cur.rest.drop i) (! isDelimiter ·))
  rw [wordEnd_eq, List.take_add, ← hrun, hword]

end Cursor

/-! ## 3. Numbers -/

/-- Digits, and one point among them unless there was one before. -/
structure DigitRun (pointSeen : Bool) (run : List Char) : Prop where
  chars : ∀ c ∈ run, c.isDigit = true ∨ c = '.'
  points : run.count '.' ≤ if pointSeen then 0 else 1

namespace DigitRun

theorem nil (pointSeen : Bool) : DigitRun pointSeen [] := ⟨by simp, by simp⟩

theorem point {run : List Char} (h : DigitRun true run) : DigitRun false ('.' :: run) where
  chars := List.forall_mem_cons.mpr ⟨.inr rfl, h.chars⟩
  points := by
    rw [List.count_cons_self]
    exact Nat.succ_le_succ h.points

theorem digit {pointSeen : Bool} {run : List Char} (h : DigitRun pointSeen run) {c : Char}
    (hc : c.isDigit = true) : DigitRun pointSeen (c :: run) where
  chars := List.forall_mem_cons.mpr ⟨.inl hc, h.chars⟩
  points := by
    have hne : c ≠ '.' := fun he => by simp [he] at hc
    rw [List.count_cons_of_ne hne]
    exact h.points

/-- No second point goes into a run, and nothing that is neither a digit nor a point. -/
theorem not_append {front : List Char} {c : Char} {more : List Char} (hc : c.isDigit = false)
    (hpoint : c = '.' → '.' ∈ front) : ¬ DigitRun false (front ++ c :: more) := by
  intro h
  have hdot : c = '.' := (h.chars c (by simp)).resolve_left (by simp [hc])
  have hfront := List.count_pos_iff.mpr (hpoint hdot)
  have hall := h.points
  rw [hdot, List.count_append, List.count_cons_self] at hall
  simp only [Bool.false_eq_true, if_false] at hall
  omega

end DigitRun

/-- Only digits and one point have a value. -/
theorem digitRun_of_readMagnitude? {w : List Char} {x : Float} (h : readMagnitude? w = some x) :
    DigitRun false w := by
  have hwhole : ∀ (ds : List Char), (∀ c ∈ ds, c.isDigit = true) → ∀ {p : Bool} {run : List Char},
      DigitRun p run → DigitRun p (ds ++ run) := by
    intro ds hds p run hrun
    induction ds with
    | nil => exact hrun
    | cons c ds ih =>
      obtain ⟨hc, hmore⟩ := List.forall_mem_cons.mp hds
      exact (ih hmore).digit hc
  have hdigits : ∀ c ∈ w.takeWhile Char.isDigit, c.isDigit = true :=
    List.all_eq_true.mp List.all_takeWhile
  have hsplit := List.takeWhile_append_dropWhile (p := Char.isDigit) (l := w)
  unfold readMagnitude? at h
  dsimp only at h
  rw [← hsplit]
  split at h
  · rename_i hdrop
    rw [hdrop]
    exact hwhole _ hdigits (.nil false)
  · rename_i frac hdrop
    rw [hdrop]
    split at h
    · rename_i hfrac
      have hrun := hwhole frac (List.all_eq_true.mp hfrac) (.nil true)
      rw [List.append_nil] at hrun
      exact hwhole _ hdigits hrun.point
    · cases h
  · cases h

theorem head?_takeWhile_ne {p : Char → Bool} {cs : List Char} {c : Char} (h : cs.head? ≠ some c) :
    (cs.takeWhile p).head? ≠ some c := by
  rcases cs with _ | ⟨d, ds⟩
  · exact h
  · rw [List.takeWhile_cons]
    split
    · exact h
    · exact fun hnone => by cases hnone

/-- A text taken apart where a number would start: an optional minus, an optional point, and what
    comes then. -/
structure NumberParts (sign point digits : List Char) : Prop where
  sign : sign = ['-'] ∨ sign = [] ∧ (point ++ digits).head? ≠ some '-'
  point : point = ['.'] ∨ point = [] ∧ digits.head? ≠ some '.'

namespace NumberParts

variable {sign point digits : List Char}

/-- A number goes on with a digit there. -/
theorem startsNumber_eq (h : NumberParts sign point digits) :
    startsNumber (sign ++ (point ++ digits)) = (digits.head?.getD (Char.ofNat 0)).isDigit := by
  rcases h.sign with rfl | ⟨rfl, hminus⟩ <;> rcases h.point with rfl | ⟨rfl, hdot⟩
  · cases digits <;> rfl
  · rcases digits with _ | ⟨c, cs⟩
    · rfl
    · have hc : c ≠ '.' := fun he => hdot (by rw [he]; rfl)
      simp [startsNumber, hc]
  · cases digits <;> rfl
  · rcases digits with _ | ⟨c, cs⟩
    · rfl
    · have hc : c ≠ '.' := fun he => hdot (by rw [he]; rfl)
      have hc' : c ≠ '-' := fun he => hminus (by rw [he]; rfl)
      simp [startsNumber, hc, hc']

theorem delimiters (h : NumberParts sign point digits) :
    ∀ c ∈ sign ++ point, isDelimiter c = false := by
  intro c hc
  have hsign : sign ⊆ ['-'] := by rcases h.sign with rfl | ⟨rfl, -⟩ <;> simp
  have hpoint : point ⊆ ['.'] := by rcases h.point with rfl | ⟨rfl, -⟩ <;> simp
  refine isDelimiter_numeral (.inr ?_)
  rcases List.mem_append.mp hc with hc | hc
  · exact .inr (List.mem_singleton.mp (hsign hc))
  · exact .inl (List.mem_singleton.mp (hpoint hc))

/-- The run at the start of a text is taken apart as the text is. -/
theorem takeWhile (h : NumberParts sign point digits) :
    NumberParts sign point (digits.takeWhile (! isDelimiter ·)) ∧
      (sign ++ (point ++ digits)).takeWhile (! isDelimiter ·) =
        sign ++ (point ++ digits.takeWhile (! isDelimiter ·)) := by
  refine ⟨⟨?_, ?_⟩, ?_⟩
  · refine h.sign.imp_right fun ⟨hsign, hhead⟩ => ⟨hsign, ?_⟩
    rcases h.point with rfl | ⟨rfl, -⟩
    · exact hhead
    · exact head?_takeWhile_ne hhead
  · exact h.point.imp_right fun ⟨hpoint, hhead⟩ => ⟨hpoint, head?_takeWhile_ne hhead⟩
  · rw [← List.append_assoc, List.takeWhile_append_of_pos (forall_not_delimiter h.delimiters),
      List.append_assoc]

/-- Whether the run starts like a number is seen at its first character behind minus and point. -/
theorem startsNumber_takeWhile (h : NumberParts sign point digits) :
    startsNumber ((sign ++ (point ++ digits)).takeWhile (! isDelimiter ·)) =
      (digits.head?.getD (Char.ofNat 0)).isDigit := by
  rw [h.takeWhile.2, h.takeWhile.1.startsNumber_eq]
  rcases digits with _ | ⟨c, cs⟩
  · rfl
  · rw [List.takeWhile_cons]
    split
    · rfl
    · rename_i hdelim
      have hc : c.isDigit = false := by
        rw [Bool.eq_false_iff]
        exact fun hdigit => hdelim (by rw [isDelimiter_digit hdigit]; rfl)
      exact hc.symm

/-- What has a value is digits with at most one point, behind the minus. -/
theorem digitRun (h : NumberParts sign point digits) {x : Float}
    (hx : readNumeral? (sign ++ (point ++ digits)) = some x) :
    DigitRun false (point ++ digits) := by
  unfold readNumeral? at hx
  rcases h.sign with rfl | ⟨rfl, hhead⟩
  · obtain ⟨y, hy, -⟩ := Option.map_eq_some_iff.mp hx
    exact digitRun_of_readMagnitude? hy
  · rw [List.nil_append] at hx
    split at hx
    · rename_i r hr
      exact absurd (by rw [hr]; rfl) hhead
    · exact digitRun_of_readMagnitude? hx

/-- A run whose digits stop inside it, at a second point or at something else, has no value. -/
theorem readNumeral?_takeWhile {run more : List Char} {c : Char}
    (h : NumberParts sign point (run ++ c :: more)) (hrun : ∀ d ∈ run, isDelimiter d = false)
    (hdelim : isDelimiter c = false) (hdigit : c.isDigit = false)
    (hpoint : c = '.' → '.' ∈ point ++ run) :
    readNumeral? ((sign ++ (point ++ (run ++ c :: more))).takeWhile (! isDelimiter ·)) = none := by
  obtain ⟨hparts, hword⟩ := h.takeWhile
  rw [Option.eq_none_iff_forall_ne_some]
  intro x hx
  rw [hword] at hx
  have hvalue := hparts.digitRun hx
  rw [List.takeWhile_append_of_pos (forall_not_delimiter hrun),
    List.takeWhile_cons_of_pos (by rw [hdelim]; rfl), ← List.append_assoc] at hvalue
  exact DigitRun.not_append hdigit hpoint hvalue

end NumberParts

namespace Cursor

/-- **The loop over the digits of a number** passes digits and at most one point, and stops where it
    can go on with neither. -/
theorem exists_digitRun (cur : Cursor) (pointSeen : Bool) (i : Nat) :
    ∃ run, DigitRun pointSeen run ∧
      cur.rest.drop i = run ++ cur.rest.drop (cur.digitsEnd pointSeen i) ∧
      cur.digitsEnd pointSeen i = i + run.length ∧
      (cur.peek (cur.digitsEnd pointSeen i)).isDigit = false ∧
      (cur.peek (cur.digitsEnd pointSeen i) = '.' → pointSeen = true ∨ '.' ∈ run) := by
  fun_induction digitsEnd cur pointSeen i with
  | case1 i hpoint => exact ⟨[], .nil true, rfl, rfl, by rw [hpoint]; rfl, fun _ => .inl rfl⟩
  | case2 pointSeen i hpoint hseen ih =>
    obtain ⟨run, hrun, hdrop, hend, hdigit, -⟩ := ih
    have hne : cur.peek i ≠ Char.ofNat 0 := by rw [hpoint]; decide
    obtain rfl : pointSeen = false := by simpa using hseen
    refine ⟨'.' :: run, hrun.point, ?_, ?_, hdigit, fun _ => .inr List.mem_cons_self⟩
    · rw [drop_eq_cons hne, hpoint, hdrop]
      rfl
    · rw [hend, List.length_cons]
      omega
  | case3 pointSeen i hpoint hc ih =>
    obtain ⟨run, hrun, hdrop, hend, hdigit, hdot⟩ := ih
    have hne : cur.peek i ≠ Char.ofNat 0 := fun h => by simp [h] at hc
    refine ⟨cur.peek i :: run, hrun.digit hc, ?_, ?_, hdigit,
      fun h => (hdot h).imp_right (List.mem_cons_of_mem _)⟩
    · rw [drop_eq_cons hne, hdrop]
      rfl
    · rw [hend, List.length_cons]
      omega
  | case4 pointSeen i hpoint hc =>
    exact ⟨[], .nil pointSeen, rfl, rfl, by simpa using hc, fun h => absurd h hpoint⟩

theorem exists_point (cs : List Char) : ∃ point digits, cs = point ++ digits ∧
    (point = ['.'] ∨ point = [] ∧ digits.head? ≠ some '.') := by
  rcases cs with _ | ⟨c, cs⟩
  · exact ⟨[], [], rfl, .inr ⟨rfl, fun hnone => by cases hnone⟩⟩
  · by_cases hc : c = '.'
    · exact ⟨['.'], cs, by rw [hc]; rfl, .inl rfl⟩
    · exact ⟨[], c :: cs, rfl, .inr ⟨rfl, fun h => hc (Option.some.inj h)⟩⟩

theorem numberStart_eq {cur : Cursor} {sign point digits : List Char}
    (h : NumberParts sign point digits) (hrest : cur.rest = sign ++ (point ++ digits)) :
    cur.numberStart = (decide (point ≠ []), (sign ++ point).length) := by
  unfold numberStart peek
  rw [hrest]
  rcases h.sign with rfl | ⟨rfl, hminus⟩ <;> rcases h.point with rfl | ⟨rfl, hdot⟩
  · rfl
  · rcases digits with _ | ⟨c, cs⟩
    · rfl
    · have hc : c ≠ '.' := fun he => hdot (by rw [he]; rfl)
      simp [hc]
  · rfl
  · rcases digits with _ | ⟨c, cs⟩
    · rfl
    · have hc : c ≠ '.' := fun he => hdot (by rw [he]; rfl)
      have hc' : c ≠ '-' := fun he => hminus (by rw [he]; rfl)
      simp [hc, hc']

theorem exists_numberParts (cur : Cursor) : ∃ sign point digits,
    NumberParts sign point digits ∧ cur.rest = sign ++ (point ++ digits) := by
  by_cases hminus : ∃ cs, cur.rest = '-' :: cs
  · obtain ⟨cs, hrest⟩ := hminus
    obtain ⟨point, digits, rfl, hpoint⟩ := exists_point cs
    exact ⟨['-'], point, digits, ⟨.inl rfl, hpoint⟩, hrest⟩
  · obtain ⟨point, digits, hrest, hpoint⟩ := exists_point cur.rest
    refine ⟨[], point, digits, ⟨.inr ⟨rfl, fun hhead => hminus ?_⟩, hpoint⟩, hrest⟩
    rw [hrest]
    exact List.head?_eq_some_iff.mp hhead

/-- **A number is read as what the run is as a whole**: all of it or nothing. -/
theorem lexNumber_eq (cur : Cursor) : cur.lexNumber =
    if startsNumber cur.word then
      match readNumeral? cur.word with
      | some x => .ok (some (⟨.number (String.ofList cur.word) x, cur.loc⟩, cur.behindWord))
      | none => .error ⟨cur.loc, .malformedNumber (String.ofList cur.word)⟩
    else .ok none := by
  obtain ⟨sign, point, digits, hparts, hrest⟩ := cur.exists_numberParts
  have hdigits : cur.rest.drop (sign ++ point).length = digits := by
    rw [hrest, ← List.append_assoc, List.drop_left]
  have hfirst : startsNumber cur.word = (cur.peek (sign ++ point).length).isDigit := by
    rw [word, hrest, hparts.startsNumber_takeWhile, peek_eq, hdigits]
  unfold lexNumber
  rw [numberStart_eq hparts hrest, hfirst]
  dsimp only
  cases (cur.peek (sign ++ point).length).isDigit with
  | false => rfl
  | true =>
    obtain ⟨run, hrun, hdrop, hend, hstop, hdot⟩ :=
      cur.exists_digitRun (decide (point ≠ [])) (sign ++ point).length
    generalize cur.digitsEnd (decide (point ≠ [])) (sign ++ point).length = i at *
    rw [hdigits] at hdrop
    have hsplit : cur.rest = (sign ++ point ++ run) ++ cur.rest.drop i := by
      refine hrest.trans ?_
      rw [hdrop]
      simp only [List.append_assoc]
    have htake : cur.rest.take i = sign ++ point ++ run := by
      rw [hsplit, hend, ← List.length_append, List.take_left]
    have hplain : ∀ c ∈ sign ++ point ++ run, isDelimiter c = false := by
      intro c hc
      rcases List.mem_append.mp hc with hc | hc
      · exact hparts.delimiters c hc
      · exact isDelimiter_numeral ((hrun.chars c hc).imp_right .inl)
    simp only [Bool.not_true, Bool.false_eq_true, if_false, if_true]
    cases hdelim : isDelimiter (cur.peek i) with
    | true =>
      have hword : cur.rest.take i = cur.word := by
        rw [htake, word, hsplit, (takeWhile_word hplain (endsWord_drop hdelim)).1]
      rw [hword, pass_word hword]
      rfl
    | false =>
      -- the digits stop inside the run, at a second point or at something else
      have hnext : cur.rest.drop i = cur.peek i :: cur.rest.drop (i + 1) :=
        drop_eq_cons fun h => by rw [h] at hdelim; cases hdelim
      have hpoint (h : cur.peek i = '.') : '.' ∈ point ++ run := by
        rcases hdot h with hseen | hmem
        · rcases hparts.point with rfl | ⟨rfl, -⟩
          · exact List.mem_cons_self
          · cases hseen
        · exact List.mem_append_right _ hmem
      have hnone : readNumeral? cur.word = none := by
        rw [hdrop, hnext] at hrest hparts
        rw [word, hrest]
        exact hparts.readNumeral?_takeWhile (fun c hc => hplain c (List.mem_append_right _ hc))
          hdelim hstop hpoint
      rw [take_wordEnd (htake ▸ hplain), hnone]
      rfl

end Cursor

/-! ## 4. Truth values, atoms and strings -/

theorem passUntil_eq (stops : Char → Bool) (passed : List Char) (loc : Loc) (cs : List Char) :
    passUntil stops passed loc cs = (passed.reverse ++ cs.takeWhile (! stops ·),
      ⟨cs.dropWhile (! stops ·), loc.advanceBy (cs.takeWhile (! stops ·))⟩) := by
  induction cs generalizing passed loc with
  | nil => simp [passUntil, Loc.advanceBy]
  | cons c cs ih =>
    unfold passUntil
    cases hc : stops c with
    | true => simp [hc, Loc.advanceBy]
    | false =>
      rw [if_neg Bool.false_ne_true, ih]
      simp [hc, Loc.advanceBy]

namespace Cursor

/-- The characters ahead say whether the run consists of two given ones. -/
theorem word_eq_pair_iff (cur : Cursor) {a b : Char} (ha : isDelimiter a = false)
    (hb : isDelimiter b = false) :
    cur.word = [a, b] ↔ cur.peek 0 = a ∧ cur.peek 1 = b ∧ isDelimiter (cur.peek 2) = true := by
  have hnul {i : Nat} {c : Char} (hc : isDelimiter c = false) (h : cur.peek i = c) :
      cur.peek i ≠ Char.ofNat 0 := by
    rintro h'
    rw [← h, h'] at hc
    cases hc
  constructor
  · intro hword
    have hrest : cur.rest = a :: b :: cur.behindWord.rest := by
      have hsplit : cur.word ++ cur.behindWord.rest = cur.rest := List.takeWhile_append_dropWhile
      rw [← hsplit, hword]
      rfl
    refine ⟨by rw [peek, hrest]; rfl, by rw [peek, hrest]; rfl, ?_⟩
    have hends := endsWord_dropWhile cur.rest
    rw [peek_eq, hrest]
    show isDelimiter (cur.behindWord.rest.head?.getD (Char.ofNat 0)) = true
    cases hhead : cur.behindWord.rest.head? with
    | none => rfl
    | some c => exact hends c hhead
  · rintro ⟨h₀, h₁, h₂⟩
    have hrest : cur.rest = [a, b] ++ cur.rest.drop 2 := by
      have hdrop := drop_eq_cons (hnul ha h₀)
      rw [drop_eq_cons (hnul hb h₁), h₀, h₁] at hdrop
      exact hdrop
    rw [word, hrest]
    refine (takeWhile_word (fun c hc => ?_) (endsWord_drop h₂)).1
    rcases List.mem_cons.mp hc with rfl | hc
    · exact ha
    · rw [List.mem_singleton.mp hc]
      exact hb

theorem take_length_word (cur : Cursor) : cur.rest.take cur.word.length = cur.word :=
  (List.prefix_iff_eq_take.mp (List.takeWhile_prefix _)).symm

/-- **A truth value is a run of two characters**: the delimiter behind it is looked for. -/
theorem lexBool_eq (cur : Cursor) : cur.lexBool =
    if cur.word = ['#', 't'] then some (⟨.boolean true, cur.loc⟩, cur.behindWord)
    else if cur.word = ['#', 'f'] then some (⟨.boolean false, cur.loc⟩, cur.behindWord)
    else none := by
  have htrue := cur.word_eq_pair_iff (show isDelimiter '#' = false from rfl)
    (show isDelimiter 't' = false from rfl)
  have hfalse := cur.word_eq_pair_iff (show isDelimiter '#' = false from rfl)
    (show isDelimiter 'f' = false from rfl)
  have hpass {c : Char} (hword : cur.word = ['#', c]) : cur.pass 2 = cur.behindWord :=
    pass_word (by rw [← cur.take_length_word, hword]; rfl)
  unfold lexBool
  dsimp only
  by_cases ht : cur.word = ['#', 't']
  · obtain ⟨h₀, h₁, h₂⟩ := htrue.mp ht
    rw [if_pos ht, hpass ht, h₀, h₁, h₂]
    rfl
  · rw [if_neg ht]
    by_cases hf : cur.word = ['#', 'f']
    · obtain ⟨h₀, h₁, h₂⟩ := hfalse.mp hf
      rw [if_pos hf, hpass hf, h₀, h₁, h₂]
      rfl
    · rw [if_neg hf]
      split
      · rfl
      · rename_i h₀
        rw [ne_eq, Decidable.not_not] at h₀
        refine if_pos ?_
        cases h₂ : isDelimiter (cur.peek 2) with
        | false => exact .inr rfl
        | true =>
          exact .inl ⟨fun h₁ => ht (htrue.mpr ⟨h₀, h₁, h₂⟩), fun h₁ => hf (hfalse.mpr ⟨h₀, h₁, h₂⟩)⟩

/-- **An atom is a run that is not empty.** -/
theorem lexAtom_eq (cur : Cursor) : cur.lexAtom =
    if cur.word = [] then (.error ⟨cur.loc, .unexpectedChar (cur.peek 0)⟩, cur)
    else (.ok ⟨.atom (String.ofList cur.word), cur.loc⟩, cur.behindWord) := by
  have hpassed : passUntil isDelimiter [] cur.loc cur.rest = (cur.word, cur.behindWord) :=
    passUntil_eq isDelimiter [] cur.loc cur.rest
  unfold lexAtom
  rw [hpassed]
  split
  · rename_i hword
    rw [if_pos (congrArg Prod.fst hword)]
  · rename_i name after hne hword
    cases hword
    rw [if_neg hne]

/-- **The run decides as a whole** what the attempts come to. -/
theorem lexWord_eq (cur : Cursor) : cur.lexWord =
    if cur.word = [] then (.error ⟨cur.loc, .unexpectedChar (cur.peek 0)⟩, cur)
    else
      match classify cur.word with
      | .ok kind => (.ok ⟨kind, cur.loc⟩, cur.behindWord)
      | .error cause => (.error ⟨cur.loc, cause⟩, cur) := by
  have htext (v : List Char) :
      (String.ofList cur.word == String.ofList v) = true ↔ cur.word = v := by
    rw [beq_iff_eq, String.ofList_inj]
  have htrue : (String.ofList cur.word == "#t") = true ↔ cur.word = ['#', 't'] := htext ['#', 't']
  have hfalse : (String.ofList cur.word == "#f") = true ↔ cur.word = ['#', 'f'] := htext ['#', 'f']
  unfold lexWord classify
  rw [lexNumber_eq, lexBool_eq, lexAtom_eq]
  dsimp only
  simp only [htrue, hfalse]
  by_cases hempty : cur.word = []
  · rw [hempty]
    rfl
  · rw [if_neg hempty, if_neg hempty]
    cases startsNumber cur.word with
    | true => cases readNumeral? cur.word <;> rfl
    | false =>
      by_cases ht : cur.word = ['#', 't']
      · rw [if_pos ht, if_pos ht]
        rfl
      · rw [if_neg ht, if_neg ht]
        by_cases hf : cur.word = ['#', 'f']
        · rw [if_pos hf, if_pos hf]
          rfl
        · rw [if_neg hf, if_neg hf]
          rfl

/-- A string goes to the next double quote. -/
theorem lexString_cons (loc : Loc) (c : Char) (cs : List Char) :
    lexString ⟨c :: cs, loc⟩ =
      match cs.dropWhile (· != '"') with
      | [] => (.error ⟨loc, .unterminatedString⟩,
          ⟨[], (loc.advance c).advanceBy (cs.takeWhile (· != '"'))⟩)
      | q :: after => (.ok ⟨.string (String.ofList (cs.takeWhile (· != '"'))), loc⟩,
          ⟨after, ((loc.advance c).advanceBy (cs.takeWhile (· != '"'))).advance q⟩) := by
  have hpassed : passUntil (· == '"') [] (loc.advance c) cs = (cs.takeWhile (· != '"'),
      ⟨cs.dropWhile (· != '"'), (loc.advance c).advanceBy (cs.takeWhile (· != '"'))⟩) :=
    passUntil_eq (· == '"') [] (loc.advance c) cs
  unfold lexString
  rw [advance, hpassed]
  cases cs.dropWhile (· != '"') <;> rfl

end Cursor

/-! ## 5. The rule -/

/-- **What token starts with a character.** Marks are tokens by themselves, a string goes to the
    next double quote, and the other delimiters start no token. Everything else is a run, which
    decides as a whole what it is. -/
theorem tokenAt_eq (loc : Loc) (c : Char) (cs : List Char) : tokenAt loc c cs =
    match markOf? c with
    | some kind => (.ok ⟨kind, loc⟩, ⟨cs, loc.advance c⟩)
    | none =>
      if c == '"' then
        match cs.dropWhile (· != '"') with
        | [] => (.error ⟨loc, .unterminatedString⟩,
            ⟨[], (loc.advance c).advanceBy (cs.takeWhile (· != '"'))⟩)
        | q :: after => (.ok ⟨.string (String.ofList (cs.takeWhile (· != '"'))), loc⟩,
            ⟨after, ((loc.advance c).advanceBy (cs.takeWhile (· != '"'))).advance q⟩)
      else if isDelimiter c then (.error ⟨loc, .unexpectedChar c⟩, ⟨c :: cs, loc⟩)
      else
        match classify (c :: cs.takeWhile (! isDelimiter ·)) with
        | .ok kind => (.ok ⟨kind, loc⟩, ⟨cs.dropWhile (! isDelimiter ·),
            loc.advanceBy (c :: cs.takeWhile (! isDelimiter ·))⟩)
        | .error cause => (.error ⟨loc, cause⟩, ⟨c :: cs, loc⟩) := by
  unfold tokenAt
  cases markOf? c with
  | some kind => rfl
  | none =>
    dsimp only
    by_cases hstring : (c == '"') = true
    · rw [if_pos hstring, if_pos hstring, Cursor.lexString_cons]
    · rw [if_neg hstring, if_neg hstring, Cursor.lexWord_eq]
      cases hdelim : isDelimiter c with
      | true =>
        have hword : Cursor.word ⟨c :: cs, loc⟩ = [] :=
          List.takeWhile_cons_of_neg (by simp [hdelim])
        rw [if_pos hword]
        split <;> rfl
      | false =>
        have hword : Cursor.word ⟨c :: cs, loc⟩ = c :: cs.takeWhile (! isDelimiter ·) :=
          List.takeWhile_cons_of_pos (by simp [hdelim])
        have hbehind : Cursor.behindWord ⟨c :: cs, loc⟩ = ⟨cs.dropWhile (! isDelimiter ·),
            loc.advanceBy (c :: cs.takeWhile (! isDelimiter ·))⟩ := by
          rw [Cursor.behindWord, hword, List.dropWhile_cons_of_pos (by simp [hdelim])]
        have hback : (c == Char.ofNat 0x60) ≠ true := by
          intro hc
          rw [beq_iff_eq.mp hc] at hdelim
          cases hdelim
        rw [if_neg hback, if_neg (by rw [hword]; exact List.cons_ne_nil _ _), hword, hbehind]
        rfl

end SmallLisp
