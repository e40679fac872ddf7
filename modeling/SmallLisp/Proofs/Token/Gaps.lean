import SmallLisp.Proofs.Token.Lines

/-!
# Gaps between tokens

Between tokens stand white space and comments (`Gap`). A comment ends with its line; one on the last
line of a text goes to the end of the text (`FinalGap`). Every text is a gap to its end or starts
with a gap and a character that a token starts with (`gapFirst`), and the lexer skips that gap and
nothing else (`Cursor.next_gap`, `Cursor.next_finalGap`).
-/

namespace SmallLisp

/-! ## 1. White space and comments -/

/-- White space and comments, each comment with the line feed that ends it. -/
inductive Gap : List Char → Prop where
  | nil : Gap []
  | space {c : Char} {gap : List Char} : isSpace c = true → Gap gap → Gap (c :: gap)
  | comment {text gap : List Char} : '\n' ∉ text → Gap gap → Gap (';' :: (text ++ '\n' :: gap))

/-- A gap to the end of a text, where a comment needs no line feed. -/
inductive FinalGap : List Char → Prop where
  | closed {gap : List Char} : Gap gap → FinalGap gap
  | comment {gap text : List Char} : Gap gap → '\n' ∉ text → FinalGap (gap ++ ';' :: text)

/-- The character does not belong to a gap. -/
def EndsGap (c : Char) : Prop := isSpace c = false ∧ c ≠ ';'

instance (c : Char) : Decidable (EndsGap c) :=
  inferInstanceAs (Decidable (isSpace c = false ∧ c ≠ ';'))

theorem Gap.append {gap gap' : List Char} (h : Gap gap) (h' : Gap gap') : Gap (gap ++ gap') := by
  induction h with
  | nil => exact h'
  | space hc _ ih => exact .space hc ih
  | comment htext _ ih =>
    rw [List.cons_append, List.append_assoc]
    exact .comment htext ih

theorem FinalGap.after {gap rest : List Char} (h : Gap gap) (h' : FinalGap rest) :
    FinalGap (gap ++ rest) := by
  cases h' with
  | closed hrest => exact .closed (h.append hrest)
  | comment hrest htext =>
    rw [← List.append_assoc]
    exact .comment (h.append hrest) htext

/-- The text is a gap to its end, or a gap and then something else. -/
def GapFirst (cs : List Char) : Prop :=
  FinalGap cs ∨ ∃ gap c rest, cs = gap ++ c :: rest ∧ Gap gap ∧ EndsGap c

theorem GapFirst.after {gap rest : List Char} (h : Gap gap) (h' : GapFirst rest) :
    GapFirst (gap ++ rest) := by
  rcases h' with hend | ⟨gap', c, rest, rfl, hgap', hc⟩
  · exact .inl (hend.after h)
  · exact .inr ⟨gap ++ gap', c, rest, by rw [List.append_assoc], h.append hgap', hc⟩

/-- **Every text starts with a gap**, which goes to its end or to a character of a token. -/
theorem gapFirst (cs : List Char) : GapFirst cs := by
  cases hcs : cs with
  | nil => exact .inl (.closed .nil)
  | cons c tail =>
    have hshorter : tail.length < cs.length := by rw [hcs, List.length_cons]; omega
    by_cases hspace : isSpace c = true
    · exact (gapFirst tail).after (.space hspace .nil)
    · by_cases hcomment : c = ';'
      · by_cases hline : '\n' ∈ tail
        · obtain ⟨text, rest, htail, htext⟩ := List.eq_append_cons_of_mem hline
          have hrest : rest.length < tail.length := by
            rw [htail, List.length_append, List.length_cons]
            omega
          have hafter := (gapFirst rest).after (.comment htext .nil)
          rw [List.cons_append, List.append_assoc] at hafter
          rw [hcomment, htail]
          exact hafter
        · rw [hcomment]
          exact .inl (.comment .nil hline)
      · exact .inr ⟨[], c, tail, rfl, .nil, by rwa [Bool.not_eq_true] at hspace, hcomment⟩
termination_by cs.length

/-! ## 2. Skipping -/

theorem skipGap_comment {text : List Char} (h : '\n' ∉ text) (loc : Loc) (rest : List Char) :
    skipGap true loc (text ++ '\n' :: rest) =
      skipGap false ((loc.advanceBy text).advance '\n') rest := by
  induction text generalizing loc with
  | nil => rfl
  | cons c text ih =>
    rw [List.mem_cons, not_or] at h
    rw [List.cons_append, skipGap, if_pos rfl, bne_iff_ne.mpr (Ne.symm h.1)]
    exact ih h.2 _

theorem skipGap_openComment {text : List Char} (h : '\n' ∉ text) (loc : Loc) :
    skipGap true loc text = ⟨[], loc.advanceBy text⟩ := by
  induction text generalizing loc with
  | nil => rfl
  | cons c text ih =>
    rw [List.mem_cons, not_or] at h
    rw [skipGap, if_pos rfl, bne_iff_ne.mpr (Ne.symm h.1)]
    exact ih h.2 _

theorem skipGap_gap {gap : List Char} (h : Gap gap) (loc : Loc) (rest : List Char) :
    skipGap false loc (gap ++ rest) = skipGap false (loc.advanceBy gap) rest := by
  induction h generalizing loc with
  | nil => rfl
  | space hc _ ih =>
    rw [List.cons_append, skipGap, if_neg (by decide), if_pos hc]
    exact ih _
  | @comment text gap htext _ ih =>
    have hstart : skipGap false loc (';' :: (text ++ '\n' :: (gap ++ rest))) =
      skipGap true (loc.advance ';') (text ++ '\n' :: (gap ++ rest)) := rfl
    rw [List.cons_append, List.append_assoc, List.cons_append, hstart, skipGap_comment htext, ih]
    simp [Loc.advanceBy]

theorem skipGap_finalGap {gap : List Char} (h : FinalGap gap) (loc : Loc) :
    skipGap false loc gap = ⟨[], loc.advanceBy gap⟩ := by
  cases h with
  | closed h =>
    have hgap := skipGap_gap h loc []
    rwa [List.append_nil] at hgap
  | comment h htext =>
    rw [skipGap_gap h, Loc.advanceBy_append]
    exact skipGap_openComment htext _

theorem skipGap_endsGap {c : Char} (h : EndsGap c) (loc : Loc) (rest : List Char) :
    skipGap false loc (c :: rest) = ⟨c :: rest, loc⟩ := by
  simp [skipGap, h.1, h.2]

namespace Cursor

variable {cur : Cursor}

/-- The lexer skips a gap and reads the token that starts after it. -/
theorem next_gap {gap : List Char} {c : Char} {rest : List Char}
    (hrest : cur.rest = gap ++ c :: rest) (hgap : Gap gap) (hc : EndsGap c) :
    cur.next = tokenAt (cur.loc.advanceBy gap) c rest := by
  refine next_of_gap_char ?_
  rw [hrest, skipGap_gap hgap, skipGap_endsGap hc]

/-- In a gap to the end of the text the lexer finds the end. -/
theorem next_finalGap (h : FinalGap cur.rest) : cur.next =
    (.ok ⟨.eof, cur.loc.advanceBy cur.rest⟩, ⟨[], cur.loc.advanceBy cur.rest⟩) :=
  next_of_gap_end (skipGap_finalGap h _)

end Cursor

end SmallLisp
